import Chton.FsEffects

/-!
# Which keys a directory keeps apart

The filter of `resolve` looks at single characters; where a key leads to is decided by its
components. A key stays below every root if it is not absolute and never goes up more
often than down. Writing one key leaves the reads of another alone if it puts no file on the
way of the other and makes no directory that lets the other come further than before.
-/

namespace Chton.FsKeys
open OutcomePrograms CallRuns ByteRegions LexicalPaths PathTrails FsStores FsEffects

/-- The operation changes nothing but what lies below the root. -/
def Confined (host : Host) (io : FsIo) (x : FsProgram Unit) : Prop :=
  ∀ fs, Ready host io fs → ∀ l, ¬ StrictlyBelow (rootPlace host io) l →
    (answer x fs).2.lookup l = fs.lookup l

/-- The operation does not change the reply to a read of the key. -/
def Spares (host : Host) (io : FsIo) (key : String) (x : FsProgram Unit) : Prop :=
  ∀ fs, Ready host io fs →
    (answer (read host io key) (answer x fs).2).1 = (answer (read host io key) fs).1

/-- The key is kept below the root, and another key is not touched through it. -/
structure Separate (host : Host) (io : FsIo) (key other : String) : Prop where
  distinct : place host io key ≠ place host io other
  below : StrictlyBelow (rootPlace host io) (place host io key)
  confined_write : ∀ data, Confined host io (write host io key data)
  confined_delete : Confined host io (delete host io key)
  spares_write : ∀ data, Spares host io other (write host io key data)
  spares_delete : Spares host io other (delete host io key)

/-- A write of the key puts no file on the way of the other one and brings it no further. -/
structure Clear (key other : String) : Prop where
  file : Writable key → reduced key ∉ visited other
  dirs : Shielded (made key) (visited other)

variable {host : Host} {io : FsIo} {key other : String} {data : Bytes}
  {fs fs₁ fs' : FileSystem} {l : Location}

theorem confined_write (hkey : Accepted host key) (h : Inside key) (data : Bytes) :
    Confined host io (write host io key data) := by
  intro fs hready l hl
  have hroot := hready.passable.root
  have heffect := write_effect data hkey h hready.passable
  generalize (answer (write host io key data) fs).2 = fs' at heffect ⊢
  rcases heffect with ⟨-, fs₁, hmade, -, rfl⟩ | ⟨-, -, hmade⟩ | ⟨hmade, -⟩
  · rw [AList.lookup_insert_ne (h.ne_of_notBelow hl)]
    exact made_confined hroot hl hmade
  · exact made_confined hroot hl hmade
  · exact made_confined hroot hl hmade

theorem confined_delete (hkey : Accepted host key) (h : Inside key) :
    Confined host io (delete host io key) := by
  intro fs hready l hl
  rcases delete_effect hkey h hready.passable with heq | ⟨heq, -, -⟩
  · rw [heq]
  · rw [heq, AList.lookup_erase_ne (h.ne_of_notBelow hl)]

theorem reply_congr (hother : Accepted host other) (h : Inside other)
    (hpassable : Passable host io fs) (hpassable' : Passable host io fs')
    (hfollow : follow (rootPlace host io) (components other.toList) fs' =
      follow (rootPlace host io) (components other.toList) fs) :
    (answer (read host io other) fs').1 = (answer (read host io other) fs).1 := by
  rw [read_eq io fs' hother, read_eq io fs hother, readFile, readFile,
    hpassable.entryAt_eq h.relative h.join_ne_nil, hpassable'.entryAt_eq h.relative h.join_ne_nil,
    hfollow]

/-- Components that lead nowhere do not after a write that is clear of them. -/
theorem Clear.follow_missing (h : Clear key other) (hshallow : Shallow (components other.toList))
    (hready : Ready host io fs) (heffect : Effect (rootPlace host io) key data fs fs')
    (hfound : follow (rootPlace host io) (components other.toList) fs = .error .notFound) :
    follow (rootPlace host io) (components other.toList) fs' = .error .notFound := by
  have htrail : trail (rootPlace host io) (components other.toList) =
      (visited other).map (rootPlace host io ++ ·) := trail_of_shallow hshallow
  obtain ⟨pre, l, post, hsplit, hpre, hl⟩ := follow_notFound_iff.mp hfound
  rw [htrail] at hsplit
  obtain ⟨pre, tail, hvisited, rfl, htail⟩ := List.map_eq_append_iff.mp hsplit
  obtain ⟨c, post, rfl, rfl, -⟩ := List.map_eq_cons_iff.mp htail
  have hdirs : ∀ q ∈ pre, fs.lookup (rootPlace host io ++ q) = some .dir :=
    fun q hq => hpre _ (List.mem_map_of_mem hq)
  have hc : c ∉ pre := fun hmem => nomatch hl.symm.trans (hdirs c hmem)
  have hroot : fs.lookup (rootPlace host io ++ []) ≠ none := by
    rw [List.append_nil, hready.passable.root]
    exact Option.some_ne_none _
  -- the first location without a directory may move on, but there is one
  obtain ⟨pre', c', post', hvisited', hdirs', hmissing, hnot⟩ := Shielded.missing h.dirs
    (fun q q' hq hbelow => hready.wellFormed.missing_below hq
      ((List.prefix_append_right_inj (rootPlace host io)).mpr hbelow))
    hroot (fun _ => heffect.new_dir) hvisited
    (fun q hq => heffect.stay (hdirs q hq) (.inl rfl)) hc hl
  refine follow_notFound_iff.mpr ⟨pre'.map (rootPlace host io ++ ·), rootPlace host io ++ c',
    post'.map (rootPlace host io ++ ·), ?_, ?_, ?_⟩
  · rw [htrail, hvisited', List.map_append, List.map_cons]
  · intro l' hl'
    obtain ⟨q, hq, rfl⟩ := List.mem_map.mp hl'
    exact hdirs' q hq
  · rcases heffect.missing hmissing with hnone | ⟨hdir, -⟩ | ⟨hwritable, heq, -⟩
    · exact hnone
    · exact absurd hdir hnot
    · refine absurd ?_ (h.file hwritable)
      rw [← heq, hvisited']
      exact List.mem_append_right _ List.mem_cons_self

/-- Where the components lead after a write that is clear of them. -/
theorem Clear.follow_eq (h : Clear key other) (hshallow : Shallow (components other.toList))
    (hready : Ready host io fs) (heffect : Effect (rootPlace host io) key data fs fs') :
    follow (rootPlace host io) (components other.toList) fs' =
      follow (rootPlace host io) (components other.toList) fs := by
  by_cases hfound : follow (rootPlace host io) (components other.toList) fs = .error .notFound
  · rw [hfound]
    exact h.follow_missing hshallow hready heffect hfound
  · refine follow_stays (fun l hl e he => heffect.stay he (.inr fun hwritable => ?_)) hfound
    rw [trail_of_shallow hshallow] at hl
    obtain ⟨q, hq, rfl⟩ := List.mem_map.mp hl
    intro heq
    rw [List.append_cancel_left heq] at hq
    exact h.file hwritable hq

theorem spares_write (hkey : Accepted host key) (hother : Accepted host other) (h : Inside key)
    (h' : Inside other) (hclear : Clear key other) (data : Bytes) :
    Spares host io other (write host io key data) := by
  intro fs hready
  have heffect := write_effect data hkey h hready.passable
  have hpassable := hready.passable.stays fun l hl => heffect.stay hl (.inl rfl)
  exact reply_congr hother h' hready.passable hpassable (hclear.follow_eq h'.shallow hready heffect)

theorem spares_delete (hkey : Accepted host key) (hother : Accepted host other) (h : Inside key)
    (h' : Inside other) (hclear : Clear key other) :
    Spares host io other (delete host io key) := by
  intro fs hready
  rcases delete_effect hkey h hready.passable with heq | ⟨heq, hwritable, hdir⟩
  · rw [heq]
  · rw [heq]
    refine reply_congr hother h' hready.passable (hready.passable.stays fun l hl => ?_)
      (follow_congr fun l hl => ?_)
    · have hne : l ≠ rootPlace host io ++ reduced key := by
        rintro rfl
        exact hdir hl
      rwa [AList.lookup_erase_ne hne]
    · rw [trail_of_shallow h'.shallow] at hl
      obtain ⟨q, hq, rfl⟩ := List.mem_map.mp hl
      have hne : rootPlace host io ++ q ≠ rootPlace host io ++ reduced key := by
        intro heq
        rw [List.append_cancel_left heq] at hq
        exact hclear.file hwritable hq
      exact AList.lookup_erase_ne hne

def treeOf (ls : List Location) : FileSystem := ls.foldr (fun l fs => fs.insert l .dir) ∅

theorem lookup_treeOf (ls : List Location) (l : Location) :
    (treeOf ls).lookup l = if l ∈ ls then some .dir else none := by
  induction ls with
  | nil => exact AList.lookup_empty l
  | cons l' ls ih =>
    change ((treeOf ls).insert l' .dir).lookup l = _
    by_cases heq : l = l'
    · rw [heq, AList.lookup_insert, if_pos List.mem_cons_self]
    · rw [AList.lookup_insert_ne heq, ih]
      simp [heq]

theorem treeOf_wellFormed {ls : List Location} (h : ∀ l ∈ ls, ∀ q, q <+: l → q ∈ ls) :
    WellFormed (treeOf ls) := by
  intro l n hn
  rw [lookup_treeOf] at hn ⊢
  split at hn
  · next hmem => rw [if_pos (h _ hmem l (List.prefix_append l [n]))]
  · exact absurd rfl hn

def slash : FsIo := ⟨['/']⟩

theorem slash_ready (hw : WellFormed fs) (hroot : fs.lookup [] = some .dir) :
    Ready host slash fs := by
  refine ⟨hw, fun l hl => ?_⟩
  have htrail : trail (startOf host.cwd slash.root) (components slash.root) = [[], [], []] := rfl
  rw [htrail] at hl
  have hnil : l = [] := by simpa using hl
  rw [hnil, hroot]

theorem reply_none_iff (hother : Accepted host other) (h : Inside other)
    (hpassable : Passable host io fs) : (answer (read host io other) fs).1 = .ok none ↔
      follow (rootPlace host io) (components other.toList) fs = .error .notFound := by
  rw [read_eq io fs hother, readFile, hpassable.entryAt_eq h.relative h.join_ne_nil]
  cases follow (rootPlace host io) (components other.toList) fs with
  | ok entry => cases entry <;> simp [readReply]
  | error e => cases e <;> simp [readReply]

/-- A read that finds nothing and is spared finds nothing after a write. -/
theorem missing_of_spares (hkey : Accepted host key) (hother : Accepted host other) (h : Inside key)
    (h' : Inside other) (hspares : Spares host slash other (write host slash key data))
    (hw : WellFormed fs) (hroot : fs.lookup [] = some .dir)
    (hmissing : follow [] (components other.toList) fs = .error .notFound) :
    ∃ fs', Effect [] key data fs fs' ∧
      follow [] (components other.toList) fs' = .error .notFound := by
  have hready : Ready host slash fs := slash_ready hw hroot
  have heffect := write_effect data hkey h hready.passable
  refine ⟨_, heffect, ?_⟩
  have hpassable := hready.passable.stays fun l hl => heffect.stay hl (.inl rfl)
  refine (reply_none_iff hother h' hpassable).mp ((hspares fs hready).trans ?_)
  exact (reply_none_iff hother h' hready.passable).mpr hmissing

def above (c : Location) : List Location := c.inits.filter (· ≠ c)

theorem mem_above {c q : Location} : q ∈ above c ↔ q <+: c ∧ q ≠ c := by
  rw [above, List.mem_filter, List.mem_inits, decide_eq_true_iff]

/-- A written file does not lie on the way of a spared key. -/
theorem file_of_spares (hkey : Accepted host key) (hother : Accepted host other) (h : Inside key)
    (h' : Inside other) (hspares : Spares host slash other (write host slash key data))
    (hwritable : Writable key) : reduced key ∉ visited other := by
  intro hmem
  obtain ⟨pre, post, hsplit, hfirst⟩ := List.eq_append_cons_of_mem hmem
  have hroot : [] ∈ pre := mem_before_of_above hsplit List.nil_prefix (Ne.symm h.reduced_ne_nil)
  have hpre : ∀ q ∈ pre, (treeOf pre).lookup q = some .dir :=
    fun q hq => by rw [lookup_treeOf, if_pos hq]
  have hend : (treeOf pre).lookup (reduced key) = none := by rw [lookup_treeOf, if_neg hfirst]
  obtain ⟨fs', heffect, hfollow⟩ := missing_of_spares hkey hother h h' hspares
    (treeOf_wellFormed fun q hq q' hq' => mem_of_above hsplit hq hq') (hpre [] hroot)
    (follow_notFound_iff.mpr ⟨pre, _, post, hsplit, hpre, hend⟩)
  refine follow_file hsplit (fun q hq => heffect.stay (hpre q hq) (.inl rfl)) ?_ hfollow
  have hnofile (l : Location) : ¬ Entry.isFile ((treeOf pre).lookup l) := by
    rw [lookup_treeOf]
    split <;> exact Bool.noConfusion
  rcases heffect with ⟨-, fs₁, -, -, rfl⟩ | ⟨-, hfile, -⟩ | ⟨hmade, hdir⟩
  · rw [List.nil_append, AList.lookup_insert]
    rfl
  · exact absurd hfile (hnofile _)
  · have hsame : fs'.lookup ([] ++ reduced key) = none := by
      rw [hmade.same _ (by simpa using hwritable.2)]
      exact hend
    exact nomatch (hdir hwritable).symm.trans hsame

/-- What a way comes to until something new is a directory after the write. -/
theorem passed_of_effect {pre before between : List Location} {m : Location}
    (heffect : Effect [] key data fs fs') (hbegins : before ++ [m] <+: made key)
    (hpre : ∀ q ∈ pre, fs.lookup q = some .dir)
    (hfree : ∀ q ∈ before ++ [m], ¬ Entry.isFile (fs.lookup ([] ++ q)))
    (hskip : ∀ q ∈ between, q ∈ pre ∨ q = m ∨ q ∈ before) :
    ∀ q ∈ pre ++ m :: between, fs'.lookup q = some .dir := by
  have hdirs {q : Location} (hq : q ∈ before ++ [m]) : fs'.lookup q = some .dir :=
    heffect.dirs hbegins hfree hq
  have hstay {q : Location} (hq : q ∈ pre) : fs'.lookup q = some .dir :=
    heffect.stay (hpre q hq) (.inl rfl)
  intro q hq
  rcases List.mem_append.mp hq with hq | hq
  · exact hstay hq
  rcases List.mem_cons.mp hq with rfl | hq
  · exact hdirs (List.mem_append_right _ (List.mem_singleton_self _))
  · rcases hskip q hq with hq | rfl | hq
    · exact hstay hq
    · exact hdirs (List.mem_append_right _ (List.mem_singleton_self _))
    · exact hdirs (List.mem_append_left _ hq)

/-- A file with the directories above it, and the directories `pre`. -/
def fileBehind (pre : List Location) (c : Location) : FileSystem :=
  (treeOf (pre ++ above c)).insert c (.file [])

theorem lookup_fileBehind {pre : List Location} {c q : Location} (hq : q ≠ c) :
    (fileBehind pre c).lookup q = if q ∈ pre ∨ q <+: c then some .dir else none := by
  have hmem : q ∈ pre ++ above c ↔ q ∈ pre ∨ q <+: c := by
    rw [List.mem_append, mem_above, and_iff_left hq]
  rw [fileBehind, AList.lookup_insert_ne hq, lookup_treeOf, if_congr hmem rfl rfl]

theorem fileBehind_wellFormed {pre : List Location} {c : Location} (hc : c ∉ pre) (hne : c ≠ [])
    (hclosed : ∀ q ∈ pre, ∀ q', q' <+: q → q' ∈ pre) : WellFormed (fileBehind pre c) := by
  have htree : ∀ q ∈ pre ++ above c, ∀ q', q' <+: q → q' ∈ pre ++ above c := by
    intro q hq q' hq'
    rw [List.mem_append, mem_above] at hq ⊢
    rcases hq with hq | ⟨hq, hqne⟩
    · exact .inl (hclosed q hq q' hq')
    · refine .inr ⟨hq'.trans hq, ?_⟩
      rintro rfl
      exact hqne (hq.eq_of_length_le hq'.length_le)
  have hnone : (treeOf (pre ++ above c)).lookup c = none := by
    rw [lookup_treeOf, if_neg]
    rw [List.mem_append, mem_above]
    rintro (hmem | ⟨-, hself⟩)
    · exact hc hmem
    · exact hself rfl
  have hparent : (treeOf (pre ++ above c)).lookup c.dropLast = some .dir := by
    rw [lookup_treeOf, if_pos]
    refine List.mem_append_right _ (mem_above.mpr ⟨List.dropLast_prefix c, fun heq => ?_⟩)
    have hlen := congrArg List.length heq
    rw [List.length_dropLast] at hlen
    have hpos := List.length_pos_iff.mpr hne
    omega
  exact insert_wellFormed (treeOf_wellFormed htree) (by rw [hnone]; exact fun h => nomatch h)
    (.inr hparent)

section
variable (hkey : Accepted host key) (hother : Accepted host other) (h : Inside key)
  (h' : Inside other) (hspares : Spares host slash other (write host slash key data))
  {pre post before : List Location} {m : Location} (hsplit : visited other = pre ++ m :: post)
  (hm : m ∉ pre) (hroot : [] ∈ pre) (hbegins : before ++ [m] <+: made key)
include hkey hother h h' hspares hsplit hm hroot hbegins

/-- A spared way comes to something new: else it would come to a directory at its end. -/
theorem exists_new_of_spares : ∃ c ∈ post, c ∉ pre ∧ c ≠ m ∧ c ∉ before := by
  by_contra hnone
  have hskip : ∀ q ∈ post, q ∈ pre ∨ q = m ∨ q ∈ before := by
    intro q hq
    by_contra hnew
    exact hnone ⟨q, hq, by simpa using hnew⟩
  have hpre : ∀ q ∈ pre, (treeOf pre).lookup q = some .dir :=
    fun q hq => by rw [lookup_treeOf, if_pos hq]
  obtain ⟨fs', heffect, hfollow⟩ := missing_of_spares hkey hother h h' hspares
    (treeOf_wellFormed fun q hq q' hq' => mem_of_above hsplit hq hq') (hpre [] hroot)
    (follow_notFound_iff.mpr ⟨pre, m, post, hsplit, hpre, by rw [lookup_treeOf, if_neg hm]⟩)
  have hdirs : ∀ q ∈ pre ++ m :: post, fs'.lookup q = some .dir := by
    refine passed_of_effect heffect hbegins hpre (fun q _ => ?_) hskip
    rw [lookup_treeOf]
    split <;> exact Bool.noConfusion
  rw [← hsplit] at hdirs
  exact nomatch (follow_dirs hdirs).symm.trans hfollow

/-- What a spared way comes to next lies below the directory that is made: a file there would be
found after the write. -/
theorem below_of_spares {between rest : List Location} {c : Location}
    (hpost : post = between ++ c :: rest) (hc : c ∉ pre) (hcm : c ≠ m) (hcb : c ∉ before)
    (hskip : ∀ q ∈ between, q ∈ pre ∨ q = m ∨ q ∈ before) : m <+: c := by
  by_contra hbelow
  have hcross : (pre ++ m :: between) ++ c :: rest = visited other := by
    rw [hsplit, hpost, List.append_assoc, List.cons_append]
  have hpre : ∀ q ∈ pre, (fileBehind pre c).lookup q = some .dir := by
    intro q hq
    have hqc : q ≠ c := by
      rintro rfl
      exact hc hq
    rw [lookup_fileBehind hqc, if_pos (.inl hq)]
  have hmissing : (fileBehind pre c).lookup m = none := by
    rw [lookup_fileBehind (Ne.symm hcm), if_neg (not_or.mpr ⟨hm, hbelow⟩)]
  have hw : WellFormed (fileBehind pre c) := fileBehind_wellFormed hc
    (fun hnil => hc (hnil ▸ hroot)) fun q hq q' hq' => mem_of_above hsplit hq hq'
  obtain ⟨fs', heffect, hfollow⟩ := missing_of_spares hkey hother h h' hspares hw (hpre [] hroot)
    (follow_notFound_iff.mpr ⟨pre, m, post, hsplit, hpre, hmissing⟩)
  have hdirs : ∀ q ∈ pre ++ m :: between, fs'.lookup q = some .dir := by
    refine passed_of_effect heffect hbegins hpre (fun q hq => ?_) hskip
    have hqc : q ≠ c := by
      rintro rfl
      rcases List.mem_append.mp hq with hq | hq
      · exact hcb hq
      · exact hcm (List.mem_singleton.mp hq)
    rw [List.nil_append, lookup_fileBehind hqc]
    split <;> exact Bool.noConfusion
  refine follow_file hcross.symm hdirs ?_ hfollow
  rw [heffect.stay (AList.lookup_insert _) (.inr fun hwritable heq => ?_)]
  · rfl
  · -- the key of the write does not lie on the way
    rw [List.nil_append] at heq
    refine file_of_spares hkey hother h h' hspares hwritable ?_
    rw [← heq, ← hcross]
    exact List.mem_append_right _ List.mem_cons_self

end

/-- The directories that a write makes bring a spared key no further. -/
theorem shielded_of_spares (hkey : Accepted host key) (hother : Accepted host other)
    (h : Inside key) (h' : Inside other)
    (hspares : Spares host slash other (write host slash key data)) :
    Shielded (made key) (visited other) := by
  intro pre m post hsplit hm hne hmade
  have hroot : [] ∈ pre := mem_before_of_above hsplit List.nil_prefix (Ne.symm hne)
  obtain ⟨before, after, hmadeSplit, hfirst⟩ := List.eq_append_cons_of_mem hmade
  have hbefore : (made key).takeWhile (· ≠ m) = before := by
    rw [hmadeSplit]
    exact takeWhile_of_notMem hfirst
  have hbegins : before ++ [m] <+: made key := ⟨after, by rw [hmadeSplit, List.append_assoc]; rfl⟩
  rw [hbefore]
  cases hfind : post.find? fun c => c ∉ pre ∧ c ≠ m ∧ c ∉ before with
  | none =>
    obtain ⟨c, hc, hnew⟩ :=
      exists_new_of_spares hkey hother h h' hspares hsplit hm hroot hbegins
    have hold := List.find?_eq_none.mp hfind c hc
    rw [decide_eq_true_iff] at hold
    exact absurd hnew hold
  | some c =>
    obtain ⟨hnew, between, rest, hpost, hskip⟩ := List.find?_eq_some_iff_append.mp hfind
    rw [decide_eq_true_iff] at hnew
    exact ⟨c, rfl, below_of_spares hkey hother h h' hspares hsplit hm hroot hbegins hpost hnew.1
      hnew.2.1 hnew.2.2 fun q hq => by simpa using hskip q hq⟩

theorem separate_of_clear (hkey : Accepted host key) (hother : Accepted host other)
    (h : Inside key) (h' : Inside other) (hne : reduced key ≠ reduced other)
    (hclear : Clear key other) : Separate host io key other where
  distinct := by
    rw [h.place_eq, h'.place_eq]
    exact fun heq => hne (List.append_cancel_left heq)
  below := h.below
  confined_write := confined_write hkey h
  confined_delete := confined_delete hkey h
  spares_write := spares_write hkey hother h h' hclear
  spares_delete := spares_delete hkey hother h h' hclear

/-- A name that is longer than the key, and so not one of its components. -/
def freshName (key : String) : Name := List.replicate (key.toList.length + 3) 'a'

theorem freshName_fresh : freshName key ∉ components key.toList := by
  intro hmem
  have hlen := length_le_of_mem_components hmem
  rw [freshName, List.length_replicate] at hlen
  omega

theorem rootPlace_fresh :
    rootPlace host ⟨'/' :: freshName key⟩ = [freshName key] := by
  have hslash : '/' ∉ freshName key := by
    intro hmem
    exact absurd (List.eq_of_mem_replicate hmem) (by decide)
  have hcomponents : components ('/' :: freshName key) = [[], freshName key] := by
    rw [← List.nil_append ('/' :: freshName key), components_append, components_of_name hslash]
    rfl
  have hname : IsName (freshName key) := by
    constructor
    · intro hstay
      cases hstay with
      | inl h => exact nomatch h
      | inr h => exact absurd (congrArg List.length h) (by simp [freshName])
    · intro h
      exact absurd (congrArg List.length h) (by simp [freshName])
  change location host.cwd ('/' :: freshName key) = [freshName key]
  rw [location, startOf, if_pos (show isAbsolute ('/' :: freshName key) from rfl), hcomponents, walk, List.foldl_cons,
    List.foldl_cons, List.foldl_nil, enter_stay (.inl rfl), enter_name hname]
  rfl

/-- A key that stays below every root is inside. -/
theorem inside_of_below
    (h : ∀ io : FsIo, StrictlyBelow (rootPlace host io) (place host io key)) : Inside key := by
  have hfresh := h ⟨'/' :: freshName key⟩
  rw [FsEffects.place_eq, rootPlace_fresh] at hfresh
  have hhead : ∀ {l : Location}, [freshName key] <+: l → l.head? = some (freshName key) := by
    rintro l ⟨rest, rfl⟩
    rfl
  have hrelative : ¬ isAbsolute key.toList := by
    intro habs
    rw [if_pos habs] at hfresh
    exact nomatch head_of_walk freshName_fresh (hhead hfresh.1)
  rw [if_neg hrelative] at hfresh
  have hshallow := shallow_of_head freshName_fresh (hhead hfresh.1)
  refine ⟨hrelative, hshallow, ?_⟩
  obtain ⟨hwalk, hlen⟩ := walk_of_shallow (l := [freshName key]) hshallow
  have hne : walk [] (components key.toList) ≠ [] := by
    intro hnil
    rw [hwalk, hnil] at hfresh
    exact hfresh.2 rfl
  have hpos := List.length_pos_iff.mpr hne
  omega

theorem Separate.clear (hkey : Accepted host key) (hother : Accepted host other) (h : Inside key)
    (h' : Inside other) (hseparate : Separate host slash key other) : Clear key other where
  file := file_of_spares hkey hother h h' (hseparate.spares_write [])
  dirs := shielded_of_spares hkey hother h h' (hseparate.spares_write [])

/-- Two accepted keys are kept apart below every root exactly if neither can leave it, they do
not come to the same names, and the writes of each are clear of the way of the other. -/
theorem separate_iff (hkey : Accepted host key) (hother : Accepted host other) :
    (∀ io : FsIo, Separate host io key other ∧ Separate host io other key) ↔
      Inside key ∧ Inside other ∧ reduced key ≠ reduced other ∧ Clear key other ∧
        Clear other key := by
  constructor
  · intro h
    have hinside := inside_of_below fun io => (h io).1.below
    have hinside' := inside_of_below fun io => (h io).2.below
    refine ⟨hinside, hinside', ?_, (h slash).1.clear hkey hother hinside hinside',
      (h slash).2.clear hother hkey hinside' hinside⟩
    intro heq
    apply (h slash).1.distinct
    rw [hinside.place_eq, hinside'.place_eq, heq]
  · rintro ⟨hinside, hinside', hne, hclear, hclear'⟩ io
    exact ⟨separate_of_clear hkey hother hinside hinside' hne hclear,
      separate_of_clear hother hkey hinside' hinside (Ne.symm hne) hclear'⟩

/-- Plain keys are clear of each other unless one lies on the way of the other. -/
theorem clear_of_plain (h : Plain key) (h' : Plain other)
    (hkey : ¬ components key.toList <+: components other.toList)
    (hother : ¬ components other.toList <+: components key.toList) : Clear key other where
  file _ hmem := by
    rw [h'.mem_visited, h.reduced_eq] at hmem
    exact hkey hmem
  dirs pre m post hsplit hm _ hmade := by
    have hbegins : m <+: components key.toList := ((h.mem_made m).mp hmade).1
    obtain ⟨ms, ⟨rest, hrest⟩, hway, hwalk⟩ := trail_split hsplit
    have hms : m = ms := by
      rw [← hwalk, walk_names fun n hn => h' n (hrest ▸ List.mem_append_left _ hn)]
      rfl
    subst hms
    cases rest with
    | nil =>
      rw [List.append_nil] at hrest
      rw [hrest] at hbegins
      exact absurd hbegins hother
    | cons n rest =>
      -- the next location is the child that the way goes on to
      have hn : IsName n := h' n (hrest ▸ List.mem_append_right _ List.mem_cons_self)
      have hpost : post = trail (m ++ [n]) rest := by
        have hall : visited other = pre ++ m :: trail (m ++ [n]) rest := by
          rw [visited, ← hrest, trail_append, hway, hwalk]
          change pre ++ m :: trail (enter m n) rest = _
          rw [enter_name hn]
        rw [hsplit] at hall
        exact (List.cons.inj (List.append_cancel_left hall)).2
      obtain ⟨tail, htail⟩ : ∃ tail, trail (m ++ [n]) rest = (m ++ [n]) :: tail := by
        cases rest with
        | nil => exact ⟨[], rfl⟩
        | cons n' rest => exact ⟨_, rfl⟩
      have hbelow : m ≠ m ++ [n] := fun heq =>
        List.cons_ne_nil n [] (List.self_eq_append_right.mp heq)
      refine ⟨m ++ [n], ?_, List.prefix_append m [n]⟩
      rw [hpost, htail]
      apply List.find?_cons_of_pos
      rw [decide_eq_true_iff]
      refine ⟨fun hmem => hm ?_, Ne.symm hbelow, ?_⟩
      · exact mem_of_above hsplit hmem (List.prefix_append m [n])
      · exact notMem_takeWhile_of_below (List.prefix_append m [n]) hbelow

/-- Plain keys are kept apart below every root unless one lies on the way of the other. -/
theorem plain_keys_separate (hkey : Accepted host key) (hother : Accepted host other)
    (h : Plain key) (h' : Plain other)
    (hapart : ¬ components key.toList <+: components other.toList)
    (hapart' : ¬ components other.toList <+: components key.toList) (io : FsIo) :
    Separate host io key other := by
  refine separate_of_clear hkey hother h.inside h'.inside ?_ (clear_of_plain h h' hapart hapart')
  rw [h.reduced_eq, h'.reduced_eq]
  intro heq
  rw [heq] at hapart
  exact hapart (List.prefix_refl _)

/-- Two plain keys side by side are kept apart below the root. -/
theorem separate_iff_plain :
    Separate asciiHost ⟨"/data".toList⟩ "a/b" "a.b" ∧
      Separate asciiHost ⟨"/data".toList⟩ "a.b" "a/b" := by
  have hkey : Plain "a/b" := by decide +kernel
  have hother : Plain "a.b" := by decide +kernel
  have hapart : ¬ components "a/b".toList <+: components "a.b".toList := by decide +kernel
  have hapart' : ¬ components "a.b".toList <+: components "a/b".toList := by decide +kernel
  refine (separate_iff (by decide +kernel) (by decide +kernel)).mpr
    ⟨hkey.inside, hother.inside, ?_, clear_of_plain hkey hother hapart hapart',
      clear_of_plain hother hkey hapart' hapart⟩ _
  rw [hkey.reduced_eq, hother.reduced_eq]
  decide +kernel

/-- Accepted keys that share a place, that are kept outside the root, and whose writes change
what another key reads: a directory on its way, or at its end. -/
theorem accepted_keys_meet_and_leave :
    (Accepted asciiHost "a//b" ∧ Accepted asciiHost "a/b" ∧ "a//b" ≠ "a/b" ∧
      place asciiHost ⟨"/data".toList⟩ "a//b" = place asciiHost ⟨"/data".toList⟩ "a/b") ∧
    (Accepted asciiHost "../x" ∧ ¬ StrictlyBelow (rootPlace asciiHost ⟨"/data".toList⟩)
      (place asciiHost ⟨"/data".toList⟩ "../x")) ∧
    (Accepted asciiHost "/etc/x" ∧ ¬ StrictlyBelow (rootPlace asciiHost ⟨"/data".toList⟩)
      (place asciiHost ⟨"/data".toList⟩ "/etc/x")) ∧
    ((answer (read asciiHost slash "a") (treeOf [[]])).1 = .ok none ∧
      (answer (read asciiHost slash "a")
        (answer (write asciiHost slash "a/b" [7]) (treeOf [[]])).2).1 =
          .error (.read "a" .isADirectory)) ∧
    ((answer (read asciiHost slash "a/../b") ((treeOf [[]]).insert ["b".toList] (.file [7]))).1 =
        .ok none ∧
      (answer (read asciiHost slash "a/../b") (answer (write asciiHost slash "a/x" [])
        ((treeOf [[]]).insert ["b".toList] (.file [7]))).2).1 = .ok (some [7])) := by
  decide +kernel

end Chton.FsKeys
