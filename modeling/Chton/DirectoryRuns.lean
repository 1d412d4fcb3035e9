import Chton.FileBatches
import Chton.FsListings

/-!
# A directory as a tree of names

On plain keys `FsIo` is a tree: a write makes the directories on the way to its key, and they
stay when the files in them are deleted. What a call answers follows from the files and the
directories that the calls before it have left.
-/

namespace Chton.DirectoryRuns
open OutcomePrograms CallRuns ByteRegions TextBytes LexicalPaths PathTrails FileStores FsStores
open FsEffects FileBatches FsListings

variable (host : Host) (io : FsIo)

def FileCall.onDirectory (walkDir : WalkDir) : FileCall → FsProgram FileAnswer
  | .read path => do
    let c ← FsStores.read host io path
    pure (.content c)
  | .write path data => do
    FsStores.write host io path data.val
    pure .done
  | .list pre => do
    let ns ← FsStores.list host io walkDir pre
    pure (.names ns)
  | .delete path => do
    FsStores.delete host io path
    pure .done

abbrev FsReply := Except FsError FileAnswer

def FileCall.performFs (walkDir : WalkDir) (c : FileCall) (fs : FileSystem) :
    FsReply × FileSystem := answer (FileCall.onDirectory host io walkDir c) fs

def Above (key : String) : Set Location :=
  {q | q ≠ [] ∧ q <+: components key.toList ∧ q ≠ components key.toList}

def Blocked (files : Files) (key : String) : Prop :=
  ∃ other, files other ≠ none ∧ components other.toList ∈ Above key

structure Tree (fs : FileSystem) (files : Files) (dirs : Set Location) : Prop
    extends Serves host io fs files where
  dirs : ∀ rel, rel ≠ [] → (fs.lookup (rootPlace host io ++ rel) = some .dir ↔ rel ∈ dirs)

variable {host io} {fs fs' : FileSystem} {files : Files} {dirs : Set Location} {key pre : String}
  {data : Bytes}

theorem fresh_tree (h : Fresh host io fs) : Tree host io fs (fun _ => none) ∅ where
  toServes := h.serves
  dirs rel hrel := by
    rw [h.empty _ ⟨List.prefix_append _ _, fun heq => hrel (List.self_eq_append_right.mp heq)⟩]
    simp

theorem Tree.congr (h : Tree host io fs files dirs) (hsame : ∀ l, fs'.lookup l = fs.lookup l) :
    Tree host io fs' files dirs where
  wellFormed := by
    intro l n
    rw [hsame, hsame]
    exact h.wellFormed l n
  passable := h.passable.stays fun l hl => (hsame l).trans hl
  plain := h.plain
  mem := by
    intro rel data
    rw [hsame]
    exact h.mem rel data
  dirs := by
    intro rel hrel
    rw [hsame]
    exact h.dirs rel hrel

theorem components_notMem_above : components key.toList ∉ Above key := fun h => h.2.2 rfl

theorem mem_above_iff (hplain : Plain key) {rel : Location} (hrel : rel ≠ []) :
    rel ∈ Above key ↔ rel ∈ made key := by
  rw [hplain.mem_made]
  exact ⟨And.right, fun h => ⟨hrel, h⟩⟩

theorem Tree.file_iff (h : Tree host io fs files dirs) (key : String) (data : Bytes) :
    fs.lookup (rootPlace host io ++ components key.toList) = some (.file data) ↔
      files key = some data := by
  rw [h.mem]
  constructor
  · intro hfile
    obtain ⟨other, hother, hfile⟩ := hfile
    rwa [← String.toList_injective (components_injective hother)]
  · exact fun hfile => ⟨key, rfl, hfile⟩

/-- The files in the way of a key are those above it. -/
theorem Tree.blocked_iff (h : Tree host io fs files dirs) (hplain : Plain key) :
    Blocked files key ↔
      ∃ rel ∈ made key, Entry.isFile (fs.lookup (rootPlace host io ++ rel)) := by
  constructor
  · intro hblocked
    obtain ⟨other, hother, habove⟩ := hblocked
    obtain ⟨data, hdata⟩ := Option.ne_none_iff_exists'.mp hother
    refine ⟨_, (mem_above_iff hplain habove.1).mp habove, ?_⟩
    rw [(h.file_iff other data).mpr hdata]
    rfl
  · intro hfile
    obtain ⟨rel, hmade, hfile⟩ := hfile
    obtain ⟨data, hdata⟩ := file_of_isFile hfile
    have hrel : rel ≠ [] := by
      rintro rfl
      rw [List.append_nil, h.passable.root] at hdata
      cases hdata
    obtain ⟨other, rfl, hother⟩ := (h.mem rel data).mp hdata
    exact ⟨other, by simp [hother], (mem_above_iff hplain hrel).mpr hmade⟩

/-- The directories above an entry need not be made. -/
theorem Tree.made_above (h : Tree host io fs files dirs) {rel : Location} {ls : List Location}
    (hrel : fs.lookup (rootPlace host io ++ rel) ≠ none) (hls : ∀ l ∈ ls, l <+: rel ∧ l ≠ rel)
    (hmade : Made (ls.map (rootPlace host io ++ ·)) fs fs') (l : Location) :
    fs'.lookup l = fs.lookup l := by
  by_cases hmem : l ∈ ls.map (rootPlace host io ++ ·)
  · have hdir := hmade.dirs l hmem
    obtain ⟨q, hq, rfl⟩ := List.mem_map.mp hmem
    obtain ⟨hbegins, hne⟩ := hls q hq
    rw [hdir, h.wellFormed.dir_above hrel ((List.prefix_append_right_inj _).mpr hbegins)]
    exact fun heq => hne (List.append_cancel_left heq)
  · exact hmade.same l hmem

/-- What a plain key passes before it comes to a location lies above it. -/
theorem above_of_before {ns : List Name} (hns : ∀ n ∈ ns, IsName n) {pre post : List Location}
    {l q : Location} (hsplit : trail [] ns = pre ++ l :: post) (hq : q ∈ pre) : q <+: l := by
  obtain ⟨ms, hms, rfl, rfl⟩ := trail_split hsplit
  have hnames : ∀ n ∈ ms, IsName n := fun n hn => hns n (hms.subset hn)
  rw [walk_names hnames]
  exact (mem_trail_names hnames).mp (List.mem_append_left _ hq)

theorem Tree.put (h : Tree host io fs files dirs) (hplain : Plain key)
    (hput : Put (rootPlace host io) key data fs fs') :
    ¬ Blocked files key ∧ components key.toList ∉ dirs ∧
      Tree host io fs' (Function.update files key (some data)) (dirs ∪ Above key) := by
  have hserves := h.toServes.put hplain hput
  have hcomponents := components_ne_nil key.toList
  obtain ⟨-, fs₁, hmade, hdir, rfl⟩ := hput
  rw [hplain.reduced_eq] at hdir hserves ⊢
  have hnot : components key.toList ∉ dirs := by
    intro hmem
    exact hdir (hmade.stay _ _ ((h.dirs _ hcomponents).mpr hmem))
  refine ⟨?_, hnot, hserves, ?_⟩
  · intro hblocked
    obtain ⟨rel, hrel, hfile⟩ := (h.blocked_iff hplain).mp hblocked
    obtain ⟨bytes, hbytes⟩ := file_of_isFile hfile
    exact nomatch (hmade.dirs _ (List.mem_map_of_mem hrel)).symm.trans (hmade.stay _ _ hbytes)
  · intro rel hrel
    by_cases heq : rel = components key.toList
    · rw [heq, AList.lookup_insert]
      simp [hnot, components_notMem_above]
    · rw [AList.lookup_insert_ne fun hsame => heq (List.append_cancel_left hsame), Set.mem_union,
        mem_above_iff hplain hrel, ← h.dirs rel hrel]
      by_cases hmem : rel ∈ made key
      · simp [hmem, hmade.dirs _ (List.mem_map_of_mem hmem)]
      · rw [hmade.same _ (by simpa using hmem)]
        simp [hmem]

theorem Tree.refused (h : Tree host io fs files dirs) (hplain : Plain key)
    (hrefused : Refused (rootPlace host io) key fs fs') :
    (Blocked files key ∨ components key.toList ∈ dirs) ∧ Tree host io fs' files dirs := by
  rcases hrefused with ⟨hsplit, hfile, hmade⟩ | ⟨hmade, hdir⟩
  · -- the directories on the way to the first file are there
    refine ⟨.inl ((h.blocked_iff hplain).mpr ⟨_, ?_, hfile⟩), h.congr ?_⟩
    · rw [hsplit]
      exact List.mem_append_right _ List.mem_cons_self
    obtain ⟨bytes, hbytes⟩ := file_of_isFile hfile
    refine h.made_above (by rw [hbytes]; exact Option.some_ne_none _) (fun l hl => ⟨?_, ?_⟩) hmade
    · exact above_of_before hplain.made_names hsplit hl
    · rintro rfl
      exact nomatch (hmade.dirs _ (List.mem_map_of_mem hl)).symm.trans (hmade.stay _ _ hbytes)
  · have hat := hdir hplain.writable
    rw [hplain.reduced_eq] at hat
    have hsame : fs.lookup (rootPlace host io ++ components key.toList) = some .dir := by
      rw [← hat, hmade.same]
      simp [hplain.mem_made]
    refine ⟨.inr ((h.dirs _ (components_ne_nil _)).mp hsame), h.congr ?_⟩
    exact h.made_above (by rw [hsame]; exact Option.some_ne_none _)
      (fun l hl => (hplain.mem_made l).mp hl) hmade

/-- A write goes through unless a file is in its way or its key is a directory. -/
theorem Tree.write (h : Tree host io fs files dirs) (hkey : Accepted host key) (hplain : Plain key)
    (data : Bytes) :
    (¬ Blocked files key ∧ components key.toList ∉ dirs ∧
      ∃ fs', answer (FsStores.write host io key data) fs = (.ok (), fs') ∧
        Tree host io fs' (Function.update files key (some data)) (dirs ∪ Above key)) ∨
    ((Blocked files key ∨ components key.toList ∈ dirs) ∧
      ∃ e fs', answer (FsStores.write host io key data) fs = (.error e, fs') ∧
        Tree host io fs' files dirs) := by
  rcases answer_cases (write_below data hkey hplain.inside h.passable) with
    ⟨⟨⟩, fs', hanswer, hput⟩ | ⟨e, fs', hanswer, hrefused⟩
  · obtain ⟨hfree, hnot, htree⟩ := h.put hplain hput
    exact .inl ⟨hfree, hnot, fs', hanswer, htree⟩
  · obtain ⟨hhindered, htree⟩ := h.refused hplain hrefused
    exact .inr ⟨hhindered, e, fs', hanswer, htree⟩

theorem Tree.delete (h : Tree host io fs files dirs) (hkey : Accepted host key)
    (hplain : Plain key) :
    (components key.toList ∉ dirs ∧
      ∃ fs', answer (FsStores.delete host io key) fs = (.ok (), fs') ∧
        Tree host io fs' (Function.update files key none) dirs) ∨
    (components key.toList ∈ dirs ∧
      ∃ e, answer (FsStores.delete host io key) fs = (.error e, fs)) := by
  have hdir := h.dirs _ (components_ne_nil key.toList)
  have hentry := h.passable.entryAt_eq hplain.inside.relative hplain.inside.join_ne_nil
  have hserves (hok : (FsCall.perform host io (.delete key) fs).1 = .ok ()) :=
    h.toServes.delete hkey hplain hok
  rw [FsCall.perform, FsCall.program] at hserves
  have hat {entry : Entry} (hfollow : entryAt host (join io.root key.toList) fs = .ok entry) :
      fs.lookup (rootPlace host io ++ components key.toList) = some entry := by
    rw [hentry] at hfollow
    rw [← walk_names hplain]
    exact (follow_ok hfollow).2
  rcases answer_cases (delete_spec io fs hkey) with
    ⟨⟨⟩, fs', hanswer, ⟨rfl, bytes, hfile⟩ | ⟨rfl, e, hnone⟩⟩ | ⟨e, fs', hanswer, rfl, hisDir⟩
  · have hnot : components key.toList ∉ dirs := by
      rw [← hdir, hat hfile]
      exact fun hfalse => Entry.noConfusion (Option.some.inj hfalse)
    rw [hanswer] at hserves
    refine .inl ⟨hnot, _, hanswer, hserves rfl, fun rel hrel => ?_⟩
    rw [hplain.place_eq host io]
    by_cases heq : rel = components key.toList
    · rw [heq, AList.lookup_erase]
      simp [hnot]
    · rw [AList.lookup_erase_ne fun hsame => heq (List.append_cancel_left hsame), h.dirs rel hrel]
  · rw [hanswer] at hserves
    refine .inl ⟨fun hmem => ?_, _, hanswer, hserves rfl, h.dirs⟩
    rw [hentry, hplain.follow_eq h.wellFormed (hdir.mpr hmem)] at hnone
    cases hnone
  · exact .inr ⟨hdir.mp (hat hisDir), e, hanswer⟩

/-- A file is in the way of the key, or the key is a directory. -/
def Hindered (files : Files) (dirs : Set Location) (key : String) : Prop :=
  Blocked files key ∨ components key.toList ∈ dirs

theorem Tree.not_hindered (h : Tree host io fs files dirs) (hplain : Plain key)
    (hfile : files key = some data) : ¬ Hindered files dirs key := by
  have hentry := (h.file_iff key data).mpr hfile
  intro hhindered
  cases hhindered with
  | inl hblocked =>
    obtain ⟨rel, hrel, hin⟩ := (h.blocked_iff hplain).mp hblocked
    obtain ⟨hbegins, hne⟩ := (hplain.mem_made rel).mp hrel
    have hdir : fs.lookup (rootPlace host io ++ rel) = some .dir := by
      apply h.wellFormed.dir_above (l := rootPlace host io ++ components key.toList)
      · rw [hentry]
        exact Option.some_ne_none _
      · exact (List.prefix_append_right_inj _).mpr hbegins
      · exact fun heq => hne (List.append_cancel_left heq)
    rw [hdir] at hin
    cases hin
  | inr hmem => cases hentry.symm.trans ((h.dirs _ (components_ne_nil _)).mpr hmem)

theorem Tree.follow_missing (h : Tree host io fs files dirs) (hplain : Plain key)
    (hnone : fs.lookup (rootPlace host io ++ components key.toList) = none) :
    (¬ Blocked files key ∧
      follow (rootPlace host io) (components key.toList) fs = .error .notFound) ∨
    (Blocked files key ∧ ∃ e, e ≠ .notFound ∧
      follow (rootPlace host io) (components key.toList) fs = .error e) := by
  obtain ⟨⟨init, last, hsplit, hlast⟩, -⟩ := hplain.writable
  have hway (l : Location) : l ∈ way (rootPlace host io) (components key.toList) ↔
      ∃ rel ∈ made key, rootPlace host io ++ rel = l := by
    rw [way_of_shallow hplain.inside.shallow, List.mem_map]
    simp only [mem_made_of_name hsplit hlast]
  have hend : fs.lookup (walk (rootPlace host io) (components key.toList)) = none := by
    rwa [walk_names hplain]
  cases hstop : obstacle (way (rootPlace host io) (components key.toList)) fs with
  | none =>
    refine .inl ⟨fun hblocked => ?_, by rw [follow, hstop, hend]⟩
    obtain ⟨rel, hrel, hfile⟩ := (h.blocked_iff hplain).mp hblocked
    rw [obstacle_none.mp hstop _ ((hway _).mpr ⟨rel, hrel, rfl⟩)] at hfile
    cases hfile
  | some e =>
    have hfollow : follow (rootPlace host io) (components key.toList) fs = .error e := by
      rw [follow, hstop]
    obtain ⟨pre, l, post, hwaySplit, hpre, ⟨rfl, hfile⟩ | ⟨rfl, hmissing⟩⟩ := obstacle_some hstop
    · obtain ⟨rel, hrel, rfl⟩ := (hway l).mp (hwaySplit ▸ List.mem_append_right _ List.mem_cons_self)
      exact .inr ⟨(h.blocked_iff hplain).mpr ⟨rel, hrel, hfile⟩, _, by decide, hfollow⟩
    · -- below something missing there is no file, and above it there are directories
      refine .inl ⟨fun hblocked => ?_, hfollow⟩
      obtain ⟨rel, hrel, hfile⟩ := (h.blocked_iff hplain).mp hblocked
      rw [way_of_shallow hplain.inside.shallow] at hwaySplit
      obtain ⟨front, tail, hfront, rfl, htail⟩ := List.map_eq_append_iff.mp hwaySplit
      obtain ⟨gap, rest, rfl, rfl, -⟩ := List.map_eq_cons_iff.mp htail
      have hvisited : visited key = front ++ gap :: (rest ++ [reduced key]) := by
        rw [visited, trail, hfront, List.append_assoc]
        rfl
      have hgap : gap <+: components key.toList := by
        rw [← hplain.mem_visited, hvisited]
        exact List.mem_append_right _ List.mem_cons_self
      rcases List.prefix_or_prefix_of_prefix ((hplain.mem_made rel).mp hrel).1 hgap with hle | hge
      · by_cases heq : rel = gap
        · rw [heq, hmissing] at hfile
          cases hfile
        · have hbefore := mem_before_of_above hvisited hle heq
          rw [hpre _ (List.mem_map_of_mem hbefore)] at hfile
          cases hfile
      · rw [h.wellFormed.missing_below hmissing ((List.prefix_append_right_inj _).mpr hge)] at hfile
        cases hfile

/-- A read is refused where the key is hindered, even if only a file above it is in the way. -/
theorem Tree.read (h : Tree host io fs files dirs) (hkey : Accepted host key) (hplain : Plain key) :
    (¬ Hindered files dirs key ∧
      answer (FsStores.read host io key) fs = (.ok (files key), fs)) ∨
    (Hindered files dirs key ∧ ∃ e, answer (FsStores.read host io key) fs = (.error e, fs)) := by
  have hdir := h.dirs _ (components_ne_nil key.toList)
  have hfile := h.file_iff key
  rw [read_eq io fs hkey, readFile,
    h.passable.entryAt_eq hplain.inside.relative hplain.inside.join_ne_nil]
  cases hl : fs.lookup (rootPlace host io ++ components key.toList) with
  | some entry =>
    rw [hplain.follow_eq h.wellFormed hl]
    rw [hl] at hdir hfile
    cases entry with
    | file data =>
      have hdata : files key = some data := (hfile data).mp rfl
      refine .inl ⟨h.not_hindered hplain hdata, ?_⟩
      rw [hdata]
      rfl
    | dir => exact .inr ⟨.inr (hdir.mp rfl), _, rfl⟩
  | none =>
    rw [hl] at hdir hfile
    have hnone : files key = none := by
      apply Option.eq_none_iff_forall_not_mem.mpr
      intro data hdata
      cases (hfile data).mpr hdata
    have hnot : components key.toList ∉ dirs := by
      intro hmem
      cases hdir.mpr hmem
    rcases h.follow_missing hplain hl with ⟨hfree, hfollow⟩ | ⟨hblocked, e, he, hfollow⟩
    · rw [hfollow, hnone]
      exact .inl ⟨fun hhindered => hhindered.elim hfree hnot, rfl⟩
    · rw [hfollow]
      refine .inr ⟨.inl hblocked, .read key e, ?_⟩
      cases e with
      | notFound => exact absurd rfl he
      | _ => rfl

/-- What a history leaves: the files, and the directories that writes have made. -/
structure Seen where
  files : Files
  dirs : Set Location

def Seen.after (s : Seen) : FileCall × FsReply → Seen
  | (.write path data, .ok _) =>
    ⟨Function.update s.files path (some data.val), s.dirs ∪ Above path⟩
  | (.delete path, .ok _) => { s with files := Function.update s.files path none }
  | _ => s

def seenIn (xs : List (FileCall × FsReply)) : Seen := xs.foldl Seen.after ⟨fun _ => none, ∅⟩

theorem seenIn_concat (xs : List (FileCall × FsReply)) (x : FileCall × FsReply) :
    seenIn (xs ++ [x]) = (seenIn xs).after x := by
  simp [seenIn]

/-- The keys and prefixes for which a directory is a tree of names. -/
def Proper (host : Host) : FileCall → Prop
  | .read key => Accepted host key ∧ Plain key
  | .write key _ => Accepted host key ∧ Plain key
  | .delete key => Accepted host key ∧ Plain key
  | .list pre => Accepted host pre ∧ Queryable pre.toList

def Expected (io : FsIo) (s : Seen) : FileCall → FsReply → Prop
  | .read key, r => (¬ Hindered s.files s.dirs key ∧ r = .ok (.content (s.files key))) ∨
      (Hindered s.files s.dirs key ∧ ∃ e, r = .error e)
  | .write key _, r => (¬ Hindered s.files s.dirs key ∧ r = .ok .done) ∨
      (Hindered s.files s.dirs key ∧ ∃ e, r = .error e)
  | .delete key, r => (components key.toList ∉ s.dirs ∧ r = .ok .done) ∨
      (components key.toList ∈ s.dirs ∧ ∃ e, r = .error e)
  | .list pre, r => ∃ names, r = .ok (.names names) ∧ names.Nodup ∧ ∀ key, key ∈ names ↔
      s.files key ≠ none ∧ startsWith key pre ∧ join io.root pre.toList ≠ [] ∧ Under pre key

variable {walkDir : WalkDir} {s : Seen}

theorem Tree.list (h : Tree host io fs files dirs) (hwalk : Walks walkDir)
    (hpre : Accepted host pre) (hquery : Queryable pre.toList) :
    ∃ names, answer (FsStores.list host io walkDir pre) fs = (.ok names, fs) ∧ names.Nodup ∧
      ∀ key, key ∈ names ↔
        files key ≠ none ∧ startsWith key pre ∧ join io.root pre.toList ≠ [] ∧ Under pre key := by
  refine ⟨_, list_eq io fs walkDir hpre, ?_⟩
  by_cases hfull : join io.root pre.toList ≠ [] ∧ fs.lookup (place host io pre) = some .dir
  · obtain ⟨hnodup, hmem⟩ := listing_dir h.toServes hwalk hquery hfull.1 hfull.2
    refine ⟨hnodup, fun key => ?_⟩
    rw [hmem]
    tauto
  · have hempty : listing host io walkDir pre fs = [] := by
      rw [listing, if_neg (mt (h.isDir_iff hquery).mp hfull)]
    rw [hempty]
    refine ⟨List.nodup_nil, fun key => ⟨fun hmem => absurd hmem List.not_mem_nil, ?_⟩⟩
    intro hkey
    obtain ⟨hfile, -, hne, hunder⟩ := hkey
    exact absurd hunder (not_under h.toServes hquery (fun heq => hfull ⟨hne, heq⟩) hfile)

theorem performFs_eq (walkDir : WalkDir) (c : FileCall) (fs : FileSystem) :
    FileCall.performFs host io walkDir c fs =
      match c with
      | .read key => ((answer (FsStores.read host io key) fs).1.map .content,
          (answer (FsStores.read host io key) fs).2)
      | .write key data => ((answer (FsStores.write host io key data.val) fs).1.map fun _ => .done,
          (answer (FsStores.write host io key data.val) fs).2)
      | .list pre => ((answer (FsStores.list host io walkDir pre) fs).1.map .names,
          (answer (FsStores.list host io walkDir pre) fs).2)
      | .delete key => ((answer (FsStores.delete host io key) fs).1.map fun _ => .done,
          (answer (FsStores.delete host io key) fs).2) := by
  cases c <;> exact answer_then _

/-- One call on a tree of names answers as expected and leaves a tree of names. -/
theorem Tree.step (h : Tree host io fs s.files s.dirs) (hwalk : Walks walkDir) {c : FileCall}
    (hc : Proper host c) {r : FsReply} (hr : FileCall.performFs host io walkDir c fs = (r, fs')) :
    Expected io s c r ∧ Tree host io fs' (s.after (c, r)).files (s.after (c, r)).dirs := by
  rw [performFs_eq] at hr
  cases c with
  | read key =>
    rcases h.read hc.1 hc.2 with ⟨hfree, hanswer⟩ | ⟨hhindered, e, hanswer⟩
    all_goals
      simp only [hanswer] at hr
      cases hr
    · exact ⟨.inl ⟨hfree, rfl⟩, h⟩
    · exact ⟨.inr ⟨hhindered, e, rfl⟩, h⟩
  | write key data =>
    rcases h.write hc.1 hc.2 data.val with
      ⟨hblocked, hnot, fs₁, hanswer, hnext⟩ | ⟨hhindered, e, fs₁, hanswer, hnext⟩
    all_goals
      simp only [hanswer] at hr
      cases hr
    · exact ⟨.inl ⟨fun hhindered => hhindered.elim hblocked hnot, rfl⟩, hnext⟩
    · exact ⟨.inr ⟨hhindered, e, rfl⟩, hnext⟩
  | list pre =>
    obtain ⟨names, hanswer, hnodup, hmem⟩ := h.list hwalk hc.1 hc.2
    simp only [hanswer] at hr
    cases hr
    exact ⟨⟨names, rfl, hnodup, hmem⟩, h⟩
  | delete key =>
    rcases h.delete hc.1 hc.2 with ⟨hnot, fs₁, hanswer, hnext⟩ | ⟨hdir, e, hanswer⟩
    all_goals
      simp only [hanswer] at hr
      cases hr
    · exact ⟨.inl ⟨hnot, rfl⟩, hnext⟩
    · exact ⟨.inr ⟨hdir, e, rfl⟩, h⟩

/-- What a history of proper calls leaves in a directory that was empty before. -/
theorem replayed (h₀ : Fresh host io fs) (hwalk : Walks walkDir)
    {xs : List (FileCall × FsReply)} (hxs : Replays (FileCall.performFs host io walkDir) fs xs)
    (hproper : ∀ x ∈ xs, Proper host x.1) :
    Tree host io (replay (FileCall.performFs host io walkDir) fs xs) (seenIn xs).files
      (seenIn xs).dirs := by
  refine (hxs.induct (R := fun xs fs => (∀ x ∈ xs, Proper host x.1) →
    Tree host io fs (seenIn xs).files (seenIn xs).dirs) (fun _ => fresh_tree h₀) ?_) hproper
  intro ys c fs₁ ih hall
  have htree := ih fun x hx => hall x (List.mem_append_left _ hx)
  have hc := hall _ (List.mem_append_right ys List.mem_cons_self)
  rw [seenIn_concat]
  exact (htree.step hwalk hc rfl).2

/-- The answer of a directory follows from the answers before: a name is refused only where a
file lies above it or a directory has been made of it, and a delete leaves directories. -/
theorem directory_runs (h₀ : Fresh host io fs) (hwalk : Walks walkDir)
    {before : List (FileCall × FsReply)} {c : FileCall} {r : FsReply}
    (hxs : Replays (FileCall.performFs host io walkDir) fs (before ++ [(c, r)]))
    (hproper : ∀ x ∈ before ++ [(c, r)], Proper host x.1) :
    Expected io (seenIn before) c r := by
  obtain ⟨hbefore, hlast⟩ := replays_append.mp hxs
  obtain ⟨hr, -⟩ := replays_cons.mp hlast
  have htree := replayed h₀ hwalk hbefore fun x hx => hproper x (List.mem_append_left _ hx)
  have hc := hproper _ (List.mem_append_right before List.mem_cons_self)
  exact (htree.step hwalk hc (Prod.ext hr.symm rfl)).1

/-- Behind a file there is nothing to read. -/
theorem directory_runs_behind :
    Expected dataIo (seenIn [(.write "a" (.byte 7), .ok .done)]) (.read "a/b")
      (.error (.read "a/b" .notADirectory)) := by
  apply directory_runs emptyData_fresh visit_walks
  · exact rfl
  · simp [Proper]
    decide +kernel

end Chton.DirectoryRuns
