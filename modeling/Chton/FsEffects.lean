import Chton.FsStores

/-!
# What the calls on a directory leave

A key that never leaves its start is kept below every root. A write of such a key makes the
directories that are missing on its way, in their order and up to the first file, and then its
own file; it fails where a directory stands.
-/

namespace Chton.FsEffects
open OutcomePrograms CallRuns ByteRegions LexicalPaths PathTrails FsStores

def StrictlyBelow (r l : Location) : Prop := r <+: l ∧ r ≠ l

instance (r l : Location) : Decidable (StrictlyBelow r l) := inferInstanceAs (Decidable (_ ∧ _))

def Passable (host : Host) (io : FsIo) (fs : FileSystem) : Prop :=
  ∀ l ∈ trail (startOf host.cwd io.root) (components io.root), fs.lookup l = some .dir

/-- The file system is a tree in which the root has been made. -/
structure Ready (host : Host) (io : FsIo) (fs : FileSystem) : Prop where
  wellFormed : WellFormed fs
  passable : Passable host io fs

/-- The components of the key never leave the place they start from, and end below it. -/
structure Inside (key : String) : Prop where
  relative : ¬ isAbsolute key.toList
  shallow : Shallow (components key.toList)
  deep : (components key.toList).count parentName <
    (components key.toList).countP fun n => IsName n

/-- The names a key comes to below its start. -/
def reduced (key : String) : Location := walk [] (components key.toList)

/-- The locations that a key leads through, its end included. -/
def visited (key : String) : List Location := trail [] (components key.toList)

/-- The directories that a write makes, in their order. -/
def made (key : String) : List Location :=
  trail [] ((components key.toList).filter fun n => ¬ stay n).dropLast

/-- The key ends with a name, and not where a write has made a directory. -/
def Writable (key : String) : Prop :=
  (∃ init last, components key.toList = init ++ [last] ∧ IsName last) ∧ reduced key ∉ made key

variable {host : Host} {io : FsIo} {key other : String} {data : Bytes}
  {fs fs₁ fs' : FileSystem} {l : Location}

theorem place_eq (host : Host) (io : FsIo) (key : String) : place host io key =
    walk (if isAbsolute key.toList then [] else rootPlace host io) (components key.toList) :=
  location_join _ _ _

theorem Inside.place_eq (h : Inside key) :
    place host io key = rootPlace host io ++ reduced key := by
  rw [FsEffects.place_eq, if_neg h.relative]
  exact (walk_of_shallow h.shallow).1

theorem Inside.reduced_ne_nil (h : Inside key) : reduced key ≠ [] := by
  have hlen := (walk_of_shallow (l := []) h.shallow).2
  have hdeep := h.deep
  intro hnil
  rw [reduced] at hnil
  rw [hnil, List.length_nil] at hlen
  omega

theorem Inside.below (h : Inside key) :
    StrictlyBelow (rootPlace host io) (place host io key) := by
  rw [h.place_eq]
  constructor
  · exact List.prefix_append _ _
  · intro heq
    exact h.reduced_ne_nil (List.self_eq_append_right.mp heq)

theorem Inside.join_ne_nil (h : Inside key) : join io.root key.toList ≠ [] := by
  obtain ⟨tail, hjoin, htail⟩ := join_eq io.root h.relative
  intro hnil
  rw [hjoin] at hnil
  have hempty := (List.append_eq_nil_iff.mp hnil).2
  rcases htail with heq | heq
  · apply h.reduced_ne_nil
    rw [reduced, ← heq, hempty]
    rfl
  · exact nomatch hempty.symm.trans heq

theorem Passable.root (h : Passable host io fs) : fs.lookup (rootPlace host io) = some .dir :=
  h _ end_mem_trail

theorem Passable.start (h : Passable host io fs) (hkey : ¬ isAbsolute key.toList) :
    fs.lookup (startOf host.cwd (join io.root key.toList)) = some .dir := by
  obtain ⟨front, -, hstart, -, -⟩ := join_way host.cwd io.root hkey
  rw [hstart]
  exact h _ start_mem_trail

theorem Passable.stays (h : Passable host io fs)
    (hdirs : ∀ l, fs.lookup l = some .dir → fs'.lookup l = some .dir) : Passable host io fs' :=
  fun l hl => hdirs l (h l hl)

theorem Passable.entryAt_eq (h : Passable host io fs) (hkey : ¬ isAbsolute key.toList)
    (hpath : join io.root key.toList ≠ []) : entryAt host (join io.root key.toList) fs =
      follow (rootPlace host io) (components key.toList) fs := by
  obtain ⟨front, hsplit, hstart, hwalk, hway⟩ := join_way host.cwd io.root hkey
  rw [entryAt, if_neg hpath, hstart, hsplit, follow, way_append, walk_append, hwalk,
    obstacle_append fun l hl => h l (hway l hl)]
  rfl

/-- Below the root, too, a write fails behind what is no directory. -/
theorem Passable.unwritable_iff (h : Passable host io fs) (hkey : ¬ isAbsolute key.toList)
    (hpath : join io.root key.toList ≠ []) : Unwritable host (join io.root key.toList) fs ↔
      (∃ l ∈ way (rootPlace host io) (components key.toList), fs.lookup l ≠ some .dir) ∨
      (join io.root key.toList).getLast? = some '/' ∨ fs.lookup (place host io key) = some .dir := by
  obtain ⟨front, hsplit, hstart, hwalk, hway⟩ := join_way host.cwd io.root hkey
  have hleft : (∃ l ∈ way (startOf host.cwd (join io.root key.toList))
      (components (join io.root key.toList)), fs.lookup l ≠ some .dir) ↔
      ∃ l ∈ way (rootPlace host io) (components key.toList), fs.lookup l ≠ some .dir := by
    rw [hstart, hsplit, way_append, hwalk]
    constructor
    · rintro ⟨l, hl, hne⟩
      rcases List.mem_append.mp hl with hl | hl
      · exact absurd (h l (hway l hl)) hne
      · exact ⟨l, hl, hne⟩
    · rintro ⟨l, hl, hne⟩
      exact ⟨l, List.mem_append_right _ hl, hne⟩
  rw [Unwritable, hleft]
  simp only [hpath, false_or]
  rfl

theorem Inside.names_ne_nil (h : Inside key) :
    (components key.toList).filter (fun n => ¬ stay n) ≠ [] := by
  intro hnil
  apply h.reduced_ne_nil
  rw [reduced, ← walk_filter, hnil]
  rfl

theorem Inside.shallow_made (h : Inside key) :
    Shallow ((components key.toList).filter fun n => ¬ stay n).dropLast :=
  fun ms hms => (Shallow.filter h.shallow) ms (hms.trans (List.dropLast_prefix _))

/-- The directories of a write leave a tree. -/
theorem Inside.made_wellFormed (h : Inside key) (hw : WellFormed fs) {r : Location}
    (hroot : fs.lookup r = some .dir) (hmade : Made ((made key).map (r ++ ·)) fs fs') :
    WellFormed fs' := by
  rw [made, ← trail_of_shallow h.shallow_made] at hmade
  exact hmade.wellFormed hw hroot

variable (host io) in
/-- Above the root there is nothing to make. -/
theorem Inside.prepared_eq (h : Inside key) :
    ∃ front : List Location, prepared host (join io.root key.toList) =
        front ++ (made key).map (rootPlace host io ++ ·) ∧
      ∀ fs, Passable host io fs → ∀ l ∈ front, fs.lookup l = some .dir := by
  obtain ⟨front, hsplit, hstart, hwalk, hway⟩ := join_way host.cwd io.root h.relative
  have hparent : parentOf (join io.root key.toList) =
      some (front.filter (fun n => ¬ stay n) ++
        ((components key.toList).filter fun n => ¬ stay n).dropLast) := by
    simp only [parentOf, hsplit, List.filter_append]
    rw [if_neg (List.append_ne_nil_of_right_ne_nil _ h.names_ne_nil),
      List.dropLast_append_of_ne_nil h.names_ne_nil]
  refine ⟨way (startOf host.cwd io.root) (front.filter fun n => ¬ stay n), ?_, ?_⟩
  · rw [prepared, hparent, hstart]
    change trail _ _ = _
    rw [trail_append, walk_filter, hwalk, made, trail_of_shallow h.shallow_made]
    rfl
  · intro fs hpassable l hl
    have hmem : l ∈ trail (startOf host.cwd io.root) front :=
      mem_trail_filter.mp (List.mem_append_left _ hl)
    rcases List.mem_append.mp hmem with hmem | hmem
    · exact hpassable l (hway l hmem)
    · rw [List.mem_singleton.mp hmem, hwalk]
      exact hpassable.root

/-- A key that ends with a name passes what its writes make. -/
theorem mem_made_of_name {init : List Name} {last : Name}
    (hsplit : components key.toList = init ++ [last]) (hlast : IsName last) (l : Location) :
    l ∈ made key ↔ l ∈ way [] (components key.toList) := by
  have hkeep : [last].filter (fun n => ¬ stay n) = [last] := by simp [hlast.1]
  rw [made, hsplit, List.filter_append, hkeep, List.dropLast_concat, way_concat, mem_trail_filter]

/-- A key that leads through directories to something else is writable. -/
theorem writable_of_way {r : Location}
    (hway : ∀ l ∈ way [] (components key.toList), fs.lookup (r ++ l) = some .dir)
    (hend : fs.lookup (r ++ reduced key) ≠ some .dir) : Writable key := by
  obtain ⟨init, last, hsplit⟩ : ∃ init last, components key.toList = init ++ [last] :=
    ⟨_, _, (List.dropLast_append_getLast (components_ne_nil _)).symm⟩
  have hpassed : reduced key ∉ way [] (components key.toList) := fun hmem => hend (hway _ hmem)
  have hlast : IsName last := by
    rw [reduced, hsplit, way_concat, walk_concat] at hpassed
    rcases component_cases last with hn | rfl | hn
    · rw [enter_stay hn] at hpassed
      exact absurd end_mem_trail hpassed
    · rw [enter_parent] at hpassed
      rcases mem_trail_of_above end_mem_trail (List.dropLast_prefix _) with hmem | habove
      · exact absurd hmem hpassed
      · rw [List.prefix_nil.mp habove] at hpassed
        exact absurd start_mem_trail hpassed
    · exact hn
  exact ⟨⟨init, last, hsplit, hlast⟩, fun hmem => hpassed ((mem_made_of_name hsplit hlast _).mp hmem)⟩

inductive Refused (r : Location) (key : String) (fs fs' : FileSystem) : Prop
  | stopped {pre post : List Location} {l : Location} (hsplit : made key = pre ++ l :: post)
    (hfile : Entry.isFile (fs.lookup (r ++ l))) (hmade : Made (pre.map (r ++ ·)) fs fs')
  | unwritten (hmade : Made ((made key).map (r ++ ·)) fs fs')
    (hdir : Writable key → fs'.lookup (r ++ reduced key) = some .dir)

structure Put (r : Location) (key : String) (data : Bytes) (fs fs' : FileSystem) : Prop where
  writable : Writable key
  file : ∃ fs₁, Made ((made key).map (r ++ ·)) fs fs₁ ∧
    fs₁.lookup (r ++ reduced key) ≠ some .dir ∧
    fs' = fs₁.insert (r ++ reduced key) (.file data)

def Effect (r : Location) (key : String) (data : Bytes) (fs fs' : FileSystem) : Prop :=
  Put r key data fs fs' ∨ Refused r key fs fs'

variable (data) in
theorem write_below (hkey : Accepted host key) (h : Inside key) (hpassable : Passable host io fs) :
    Ensures (write host io key data) fs (fun _ fs' => Put (rootPlace host io) key data fs fs')
      fun _ fs' => Refused (rootPlace host io) key fs fs' := by
  obtain ⟨front, hprepared, hfront⟩ := h.prepared_eq host io
  have hway (l : Location) : l ∈ way (rootPlace host io) (components key.toList) ↔
      ∃ q ∈ way [] (components key.toList), rootPlace host io ++ q = l := by
    rw [way_of_shallow h.shallow, List.mem_map]
  have hmade {fs₁ : FileSystem}
      (hmade : Made (prepared host (join io.root key.toList)) fs fs₁) :
      Made ((made key).map (rootPlace host io ++ ·)) fs fs₁ ∧ Passable host io fs₁ := by
    refine ⟨?_, hpassable.stays fun l hl => hmade.stay l _ hl⟩
    rw [hprepared] at hmade
    exact hmade.of_append (hfront fs hpassable)
  apply (write_spec data hkey (hpassable.start h.relative)).mono
  · intro _ fs' hwritten
    obtain ⟨fs₁, hprep, hwritable, rfl⟩ := hwritten
    obtain ⟨hdirs, hpassable₁⟩ := hmade hprep
    rw [hpassable₁.unwritable_iff h.relative h.join_ne_nil, h.place_eq] at hwritable
    push Not at hwritable
    refine ⟨writable_of_way (fun q hq => ?_) hwritable.2.2, fs₁, hdirs, hwritable.2.2, ?_⟩
    · exact hwritable.1 _ ((hway _).mpr ⟨q, hq, rfl⟩)
    · rw [h.place_eq]
  · intro _ fs' hstopped
    rcases hstopped with ⟨pre, l, post, hsplit, hfile, hprep⟩ | ⟨hprep, hunwritable⟩
    · have hnot : l ∉ front := by
        intro hl
        rw [hfront fs hpassable l hl] at hfile
        exact nomatch hfile
      rw [hprepared] at hsplit
      obtain ⟨pre', rfl, hrest⟩ := split_after hsplit hnot
      obtain ⟨pre, tail, hkeySplit, rfl, htail⟩ := List.map_eq_append_iff.mp hrest
      obtain ⟨q, rest, rfl, rfl, -⟩ := List.map_eq_cons_iff.mp htail
      exact .stopped hkeySplit hfile (hprep.of_append (hfront fs hpassable))
    · obtain ⟨hdirs, hpassable₁⟩ := hmade hprep
      refine .unwritten hdirs fun hkey' => ?_
      obtain ⟨⟨init, last, hsplit, hlast⟩, -⟩ := hkey'
      rw [hpassable₁.unwritable_iff h.relative h.join_ne_nil, h.place_eq] at hunwritable
      rcases hunwritable with ⟨l, hl, hne⟩ | hsep | hdir
      · obtain ⟨q, hq, rfl⟩ := (hway l).mp hl
        refine absurd (hdirs.dirs _ ?_) hne
        exact List.mem_map_of_mem ((mem_made_of_name hsplit hlast q).mpr hq)
      · exact absurd hsep (join_open h.relative hsplit fun hnil => hlast.1 (.inl hnil))
      · exact hdir

variable (data) in
theorem write_effect (hkey : Accepted host key) (h : Inside key) (hpassable : Passable host io fs) :
    Effect (rootPlace host io) key data fs (answer (write host io key data) fs).2 := by
  rcases answer_cases (write_below data hkey h hpassable) with ⟨_, fs', hanswer, hput⟩ |
    ⟨_, fs', hanswer, hrefused⟩
  · rw [hanswer]
    exact .inl hput
  · rw [hanswer]
    exact .inr hrefused

section
variable {r : Location}

/-- What there was stays, except for the content of the file of the key. -/
theorem Effect.stay (h : Effect r key data fs fs') {e : Entry} (hl : fs.lookup l = some e)
    (hne : e = .dir ∨ (Writable key → l ≠ r ++ reduced key)) : fs'.lookup l = some e := by
  rcases h with ⟨hkey, fs₁, hmade, hdir, rfl⟩ | ⟨hsplit, hfile, hmade⟩ | ⟨hmade, hdir⟩
  · have hl₁ := hmade.stay l e hl
    have hother : l ≠ r ++ reduced key := by
      rcases hne with rfl | hne
      · rintro rfl
        exact hdir hl₁
      · exact hne hkey
    rw [AList.lookup_insert_ne hother]
    exact hl₁
  · exact hmade.stay l e hl
  · exact hmade.stay l e hl

/-- What was missing may be a directory, after those made before it, or the file of the key. -/
theorem Effect.missing (h : Effect r key data fs fs') (hl : fs.lookup (r ++ l) = none) :
    fs'.lookup (r ++ l) = none ∨
    (fs'.lookup (r ++ l) = some .dir ∧ l ∈ made key ∧
      ∀ q ∈ (made key).takeWhile (· ≠ l), fs'.lookup (r ++ q) = some .dir) ∨
    (Writable key ∧ l = reduced key ∧ Entry.isFile (fs'.lookup (r ++ l))) := by
  have hnew {ls : List Location} {fs₁ : FileSystem} (hmade : Made (ls.map (r ++ ·)) fs fs₁) :
      fs₁.lookup (r ++ l) = none ∨ (fs₁.lookup (r ++ l) = some .dir ∧ l ∈ ls) := by
    by_cases hmem : l ∈ ls
    · exact .inr ⟨hmade.dirs _ (List.mem_map_of_mem hmem), hmem⟩
    · left
      rw [hmade.same, hl]
      simpa using hmem
  have hbefore {q : Location} (hq : q ∈ (made key).takeWhile (· ≠ l)) : q ∈ made key :=
    List.takeWhile_subset _ hq
  rcases h with ⟨hkey, fs₁, hmade, hdir, rfl⟩ | ⟨hsplit, hfile, hmade⟩ | ⟨hmade, hdir⟩
  · by_cases heq : l = reduced key
    · rw [heq, AList.lookup_insert]
      exact .inr (.inr ⟨hkey, rfl, rfl⟩)
    have hother {q : Location} (hq : q ≠ reduced key) : r ++ q ≠ r ++ reduced key :=
      fun h => hq (List.append_cancel_left h)
    rw [AList.lookup_insert_ne (hother heq)]
    refine (hnew hmade).imp_right fun hdir => .inl ⟨hdir.1, hdir.2, fun q hq => ?_⟩
    have hne : q ≠ reduced key := by
      rintro rfl
      exact hkey.2 (hbefore hq)
    rw [AList.lookup_insert_ne (hother hne)]
    exact hmade.dirs _ (List.mem_map_of_mem (hbefore hq))
  · refine (hnew hmade).imp_right fun hdir => .inl ⟨hdir.1, ?_, fun q hq => ?_⟩
    · rw [hsplit]
      exact List.mem_append_left _ hdir.2
    · rw [hsplit, takeWhile_of_mem hdir.2] at hq
      exact hmade.dirs _ (List.mem_map_of_mem (List.takeWhile_subset _ hq))
  · refine (hnew hmade).imp_right fun hdir => .inl ⟨hdir.1, hdir.2, fun q hq => ?_⟩
    exact hmade.dirs _ (List.mem_map_of_mem (hbefore hq))

/-- A directory that is new is made by the write, and those made before it are there. -/
theorem Effect.new_dir (h : Effect r key data fs fs') (hl : fs.lookup (r ++ l) = none)
    (hdir : fs'.lookup (r ++ l) = some .dir) :
    l ∈ made key ∧ ∀ q ∈ (made key).takeWhile (· ≠ l), fs'.lookup (r ++ q) = some .dir := by
  rcases h.missing hl with hnone | ⟨-, hmade⟩ | ⟨-, -, hfile⟩
  · cases hdir.symm.trans hnone
  · exact hmade
  · rw [hdir] at hfile
    cases hfile

/-- Up to the first file the directories of a write are made. -/
theorem Effect.dirs (h : Effect r key data fs fs') {q : Location} {before : List Location}
    (hbefore : before <+: made key) (hfree : ∀ q ∈ before, ¬ Entry.isFile (fs.lookup (r ++ q)))
    (hq : q ∈ before) : fs'.lookup (r ++ q) = some .dir := by
  have hmem : q ∈ made key := hbefore.subset hq
  rcases h with ⟨hkey, fs₁, hmade, hdir, rfl⟩ | ⟨hsplit, hfile, hmade⟩ | ⟨hmade, hdir⟩
  · have hne : r ++ q ≠ r ++ reduced key := by
      intro heq
      rw [List.append_cancel_left heq] at hmem
      exact hkey.2 hmem
    rw [AList.lookup_insert_ne hne]
    exact hmade.dirs _ (List.mem_map_of_mem hmem)
  · refine hmade.dirs _ (List.mem_map_of_mem ?_)
    rw [hsplit] at hbefore
    rcases List.prefix_or_prefix_of_prefix hbefore (List.prefix_append _ _) with hpre | ⟨rest, rfl⟩
    · exact hpre.subset hq
    · cases rest with
      | nil => simpa using hq
      | cons l rest =>
        obtain rfl := (List.cons_prefix_cons.mp ((List.prefix_append_right_inj _).mp hbefore)).1
        exact absurd hfile (hfree _ (List.mem_append_right _ List.mem_cons_self))
  · exact hmade.dirs _ (List.mem_map_of_mem hmem)

end

theorem delete_effect (hkey : Accepted host key) (h : Inside key) (hpassable : Passable host io fs) :
    (answer (delete host io key) fs).2 = fs ∨
    ((answer (delete host io key) fs).2 = fs.erase (rootPlace host io ++ reduced key) ∧
      Writable key ∧ fs.lookup (rootPlace host io ++ reduced key) ≠ some .dir) := by
  rcases answer_cases (delete_spec io fs hkey) with
    ⟨_, fs', hanswer, ⟨rfl, data, hentry⟩ | ⟨rfl, -⟩⟩ | ⟨_, fs', hanswer, rfl, -⟩
  · right
    rw [hpassable.entryAt_eq h.relative h.join_ne_nil] at hentry
    obtain ⟨hway, hend⟩ := follow_ok hentry
    rw [(walk_of_shallow h.shallow).1] at hend
    have hdir : fs.lookup (rootPlace host io ++ reduced key) ≠ some .dir := by
      intro hdir
      exact nomatch hdir.symm.trans hend
    refine ⟨by rw [hanswer, h.place_eq], writable_of_way (fun q hq => ?_) hdir, hdir⟩
    apply hway
    rw [way_of_shallow h.shallow]
    exact List.mem_map_of_mem hq
  · exact .inl (congrArg Prod.snd hanswer)
  · exact .inl (congrArg Prod.snd hanswer)

theorem made_confined {r : Location} {ls : List Location} (hroot : fs.lookup r = some .dir)
    (hl : ¬ StrictlyBelow r l) (h : Made (ls.map (r ++ ·)) fs fs') :
    fs'.lookup l = fs.lookup l := by
  by_cases hmem : l ∈ ls.map (r ++ ·)
  · obtain ⟨q, -, rfl⟩ := List.mem_map.mp hmem
    have heq : r = r ++ q := by
      by_contra hne
      exact hl ⟨List.prefix_append r q, hne⟩
    rw [← heq, h.stay r _ hroot, hroot]
  · exact h.same l hmem

theorem Inside.ne_of_notBelow (h : Inside key) {r : Location} (hl : ¬ StrictlyBelow r l) :
    l ≠ r ++ reduced key := by
  rintro rfl
  exact hl ⟨List.prefix_append _ _, fun heq => h.reduced_ne_nil (List.self_eq_append_right.mp heq)⟩

theorem Ready.isDir_iff {pre : String} (h : Ready host io fs) (hpre : Queryable pre.toList) :
    Entry.isDir (entryAt host (join io.root pre.toList) fs).toOption ↔
      join io.root pre.toList ≠ [] ∧ fs.lookup (place host io pre) = some .dir := by
  by_cases hpath : join io.root pre.toList = []
  · rw [entryAt, if_pos hpath]
    constructor
    · exact fun hfalse => nomatch hfalse
    · exact fun hdir => absurd hpath hdir.1
  have hplace : place host io pre = walk (rootPlace host io) (components pre.toList) := by
    rw [place_eq, if_neg hpre.relative]
  rw [h.passable.entryAt_eq hpre.relative hpath, hplace]
  constructor
  · intro hdir
    refine ⟨hpath, ?_⟩
    cases hfollow : follow (rootPlace host io) (components pre.toList) fs with
    | error e =>
      rw [hfollow] at hdir
      exact nomatch hdir
    | ok entry =>
      rw [hfollow] at hdir
      rw [(follow_ok hfollow).2]
      exact dir_of_isDir hdir
  · intro hdir
    obtain ⟨ns, hns, hcomponents⟩ := hpre
    have hnames : (components pre.toList).filter (fun n => ¬ stay n) = ns :=
      namesOf_eq hns hcomponents
    rw [← walk_filter, hnames, walk_names hns] at hdir
    rw [follow_dirs]
    · rfl
    intro l hl
    rw [← mem_trail_filter, hnames] at hl
    exact h.wellFormed.dir_of_prefix hdir.2 (below_of_mem_trail hns hl)

def Plain (key : String) : Prop := ∀ n ∈ components key.toList, IsName n

instance (key : String) : Decidable (Plain key) := List.decidableBAll _ _

theorem Plain.reduced_eq (h : Plain key) : reduced key = components key.toList :=
  (walk_names h).trans (List.nil_append _)

theorem Plain.inside (h : Plain key) : Inside key := by
  have hcount : ∀ ns : List Name, (∀ n ∈ ns, IsName n) → ns.count parentName = 0 := by
    intro ns hns
    apply List.count_eq_zero.mpr
    intro hmem
    exact (hns _ hmem).2 rfl
  constructor
  · intro habs
    obtain ⟨cs, hcs⟩ : ∃ cs, key.toList = '/' :: cs := by
      cases hkey : key.toList with
      | nil =>
        rw [hkey] at habs
        exact nomatch habs
      | cons c cs =>
        rw [hkey] at habs
        exact ⟨cs, congrArg (· :: cs) (Option.some.inj habs)⟩
    have hempty : IsName [] := by
      apply h
      rw [hcs]
      exact List.mem_cons_self
    exact hempty.1 (.inl rfl)
  · intro ms hms
    rw [hcount ms fun n hn => h n (hms.subset hn)]
    exact Nat.zero_le _
  · rw [hcount _ h]
    apply List.countP_pos_iff.mpr
    refine ⟨_, List.mem_cons_self, ?_⟩
    simpa using h _ List.mem_cons_self

theorem Plain.mem_visited (h : Plain key) (l : Location) :
    l ∈ visited key ↔ l <+: components key.toList := mem_trail_names h

variable (host io) in
theorem Plain.place_eq (h : Plain key) :
    place host io key = rootPlace host io ++ components key.toList := by
  rw [h.inside.place_eq, h.reduced_eq]

theorem Plain.writable (h : Plain key) : Writable key := by
  obtain ⟨init, last, hsplit⟩ : ∃ init last, components key.toList = init ++ [last] :=
    ⟨_, _, (List.dropLast_append_getLast (components_ne_nil _)).symm⟩
  have hlast : IsName last := h last (hsplit ▸ List.mem_append_right _ (List.mem_singleton_self _))
  refine ⟨⟨init, last, hsplit, hlast⟩, fun hmem => ?_⟩
  have hinit : ∀ n ∈ init, IsName n := fun n hn => h n (hsplit ▸ List.mem_append_left _ hn)
  rw [mem_made_of_name hsplit hlast, h.reduced_eq, hsplit, way_concat, mem_trail_names hinit] at hmem
  have hlen := hmem.length_le
  rw [List.length_append, List.length_singleton] at hlen
  omega

theorem Plain.made_names (h : Plain key) :
    ∀ n ∈ ((components key.toList).filter fun n => ¬ stay n).dropLast, IsName n :=
  fun n hn => h n (List.mem_of_mem_filter (List.dropLast_subset _ hn))

theorem Plain.mem_made (h : Plain key) (l : Location) :
    l ∈ made key ↔ l <+: components key.toList ∧ l ≠ components key.toList := by
  have hsplit : visited key = way [] (components key.toList) ++ [components key.toList] := by
    rw [visited, trail, walk_names h, List.nil_append]
  obtain ⟨⟨init, last, hcomponents, hlast⟩, hnot⟩ := h.writable
  rw [mem_made_of_name hcomponents hlast, h.reduced_eq] at hnot
  rw [mem_made_of_name hcomponents hlast, ← h.mem_visited, hsplit, List.mem_append,
    List.mem_singleton]
  constructor
  · exact fun hl => ⟨.inl hl, fun heq => hnot (heq ▸ hl)⟩
  · exact fun hl => hl.1.resolve_right hl.2

/-- In a tree a plain key leads to what is at its place. -/
theorem Plain.follow_eq (h : Plain key) (hw : WellFormed fs) {r : Location} {entry : Entry}
    (hl : fs.lookup (r ++ components key.toList) = some entry) :
    follow r (components key.toList) fs = .ok entry := by
  have hway : ∀ l ∈ way r (components key.toList), fs.lookup l = some .dir := by
    intro l hmem
    rw [way_of_shallow h.inside.shallow] at hmem
    obtain ⟨q, hq, rfl⟩ := List.mem_map.mp hmem
    obtain ⟨⟨init, last, hcomponents, hlast⟩, -⟩ := h.writable
    obtain ⟨hbegins, hne⟩ := (h.mem_made q).mp ((mem_made_of_name hcomponents hlast q).mpr hq)
    apply hw.dir_above (l := r ++ components key.toList)
    · rw [hl]
      exact Option.some_ne_none entry
    · exact (List.prefix_append_right_inj r).mpr hbegins
    · exact fun heq => hne (List.append_cancel_left heq)
  rw [follow, obstacle_none.mpr hway, walk_names h, hl]

def asciiHost : Host := ⟨Char.isAlphanum, []⟩

end Chton.FsEffects
