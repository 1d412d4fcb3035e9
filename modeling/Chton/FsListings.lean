import Chton.FsEffects

/-!
# Listings of a directory

A listing with a prefix resolves the prefix as a path, walks the directory found there and
keeps the names that start with the prefix. Names that start with the prefix but lie
outside that directory are never visited.
-/

namespace Chton.FsListings
open OutcomePrograms CallRuns ByteRegions TextBytes LexicalPaths PathTrails FileStores FsStores
open FsEffects

inductive FsCall where
  | write (path : String) (data : Bytes)
  | delete (path : String)

def FsCall.path : FsCall → String
  | .write path _ => path
  | .delete path => path

variable (host : Host) (io : FsIo)

def FsCall.program : FsCall → FsProgram Unit
  | .write path data => FsStores.write host io path data
  | .delete path => FsStores.delete host io path

def FsCall.perform (c : FsCall) (fs : FileSystem) : Except FsError Unit × FileSystem :=
  answer (c.program host io) fs

def FsCall.after (files : Files) : FsCall → Files
  | .write path data => Function.update files path (some data)
  | .delete path => Function.update files path none

/-- The contents last written and not deleted since. -/
def stored (cs : List FsCall) : Files := cs.foldl FsCall.after fun _ => none

structure Fresh (fs : FileSystem) : Prop extends Ready host io fs where
  empty : ∀ l, StrictlyBelow (rootPlace host io) l → fs.lookup l = none

/-- `walkdir` visits every entry at or below a directory once. -/
def Walks (walkDir : WalkDir) : Prop :=
  ∀ fs, WellFormed fs → ∀ l, fs.lookup l = some .dir →
    (walkDir fs l).Nodup ∧ ∀ rel, rel ∈ walkDir fs l ↔ fs.lookup (l ++ rel) ≠ none

def Under (pre key : String) : Prop :=
  namesOf pre.toList <+: components key.toList ∧ namesOf pre.toList ≠ components key.toList

structure Serves (fs : FileSystem) (files : Files) : Prop extends Ready host io fs where
  plain : ∀ key, files key ≠ none → Plain key
  mem : ∀ rel data, fs.lookup (rootPlace host io ++ rel) = some (.file data) ↔
    ∃ key, components key.toList = rel ∧ files key = some data

variable {host io} {fs fs' : FileSystem} {files : Files} {key pre : String} {data : Bytes}

theorem Fresh.serves (h : Fresh host io fs) : Serves host io fs fun _ => none where
  toReady := h.toReady
  plain _ hkey := absurd rfl hkey
  mem rel data := by
    constructor
    · intro hfile
      by_cases hrel : rel = []
      · rw [hrel, List.append_nil, h.passable.root] at hfile
        exact nomatch hfile
      · rw [h.empty _ ⟨List.prefix_append _ _, fun heq => hrel (List.self_eq_append_right.mp heq)⟩]
          at hfile
        exact nomatch hfile
    · rintro ⟨_, _, hnone⟩
      exact nomatch hnone

/-- Only the file of one key has changed. -/
theorem Serves.update (h : Serves host io fs files) {v : Option Bytes} (hplain : Plain key)
    (hready : Ready host io fs')
    (hat : ∀ bytes, fs'.lookup (place host io key) = some (.file bytes) ↔ v = some bytes)
    (hothers : ∀ l bytes, l ≠ place host io key →
      (fs'.lookup l = some (.file bytes) ↔ fs.lookup l = some (.file bytes))) :
    Serves host io fs' (Function.update files key v) where
  toReady := hready
  plain := by
    intro other hother
    by_cases heq : other = key
    · rw [heq]
      exact hplain
    · rw [Function.update_of_ne heq] at hother
      exact h.plain other hother
  mem := by
    intro rel bytes
    by_cases hrel : rel = components key.toList
    · rw [hrel, ← hplain.place_eq host io, hat]
      constructor
      · exact fun hv => ⟨key, rfl, by rw [Function.update_self, hv]⟩
      · rintro ⟨other, hother, hfile⟩
        cases String.toList_injective (components_injective hother)
        rwa [Function.update_self] at hfile
    · have hplace : rootPlace host io ++ rel ≠ place host io key := by
        rw [hplain.place_eq host io]
        exact fun heq => hrel (List.append_cancel_left heq)
      rw [hothers _ _ hplace, h.mem]
      apply exists_congr
      intro other
      apply and_congr_right
      intro hother
      have hne : other ≠ key := by
        rintro rfl
        exact hrel hother.symm
      rw [Function.update_of_ne hne]

theorem Serves.put (h : Serves host io fs files) (hplain : Plain key)
    (hput : Put (rootPlace host io) key data fs fs') :
    Serves host io fs' (Function.update files key (some data)) := by
  have hstay := fun l e => Effect.stay (l := l) (e := e) (.inl hput)
  obtain ⟨-, fs₁, hmade, hdir, rfl⟩ := hput
  rw [hplain.reduced_eq] at hdir hstay ⊢
  apply h.update hplain
  · refine ⟨insert_wellFormed ?_ hdir (.inr (hmade.dirs _ ?_)), h.passable.stays fun l hl => ?_⟩
    · exact hplain.inside.made_wellFormed h.wellFormed h.passable.root hmade
    · rw [List.dropLast_append_of_ne_nil (components_ne_nil _)]
      refine List.mem_map_of_mem ((hplain.mem_made _).mpr ⟨List.dropLast_prefix _, fun heq => ?_⟩)
      have hlen := congrArg List.length heq
      have hpos := List.length_pos_iff.mpr (components_ne_nil key.toList)
      rw [List.length_dropLast] at hlen
      omega
    · exact hstay l _ hl (.inl rfl)
  · rw [hplain.place_eq host io]
    simp [AList.lookup_insert]
  · intro l bytes hl
    rw [hplain.place_eq host io] at hl
    rw [AList.lookup_insert_ne hl, hmade.file]

theorem Serves.write (h : Serves host io fs files) (hkey : Accepted host key) (hplain : Plain key)
    (hok : (FsCall.perform host io (.write key data) fs).1 = .ok ()) :
    Serves host io (FsCall.perform host io (.write key data) fs).2
      (FsCall.after files (.write key data)) := by
  rw [FsCall.perform, FsCall.program] at hok ⊢
  rcases answer_cases (write_below data hkey hplain.inside h.passable) with
    ⟨_, fs', hanswer, hput⟩ | ⟨e, fs', hanswer, -⟩
  · rw [hanswer]
    exact h.put hplain hput
  · rw [hanswer] at hok
    cases hok

theorem Serves.delete (h : Serves host io fs files) (hkey : Accepted host key)
    (hplain : Plain key) (hok : (FsCall.perform host io (.delete key) fs).1 = .ok ()) :
    Serves host io (FsCall.perform host io (.delete key) fs).2
      (FsCall.after files (.delete key)) := by
  have hentry := h.passable.entryAt_eq hplain.inside.relative hplain.inside.join_ne_nil
  rw [FsCall.perform, FsCall.program] at hok ⊢
  rcases answer_cases (delete_spec io fs hkey) with
    ⟨_, fs', hanswer, ⟨rfl, bytes, hfile⟩ | ⟨rfl, e, hnone⟩⟩ | ⟨e, fs', hanswer, -⟩
  · rw [hentry] at hfile
    have hat := (follow_ok hfile).2
    rw [walk_names hplain, ← hplain.place_eq host io] at hat
    have hdir : fs.lookup (place host io key) ≠ some .dir := by
      rw [hat]
      exact fun hdir => nomatch hdir
    rw [hanswer]
    apply h.update hplain
    · refine ⟨erase_wellFormed h.wellFormed hdir, h.passable.stays fun l hl => ?_⟩
      have hne : l ≠ place host io key := by
        rintro rfl
        exact hdir hl
      rwa [AList.lookup_erase_ne hne]
    · simp [AList.lookup_erase]
    · intro l bytes hl
      rw [AList.lookup_erase_ne hl]
  · have hnotFile (bytes : Bytes) : fs'.lookup (place host io key) ≠ some (.file bytes) := by
      intro hat
      rw [hplain.place_eq host io] at hat
      rw [hentry, hplain.follow_eq h.wellFormed hat] at hnone
      cases hnone
    rw [hanswer]
    apply h.update hplain h.toReady
    · simp [hnotFile]
    · exact fun _ _ _ => Iff.rfl
  · rw [hanswer] at hok
    cases hok

/-- After a run of successful writes and deletes the files are the stored ones. -/
theorem serves_of_run {cs : List FsCall} (h : Serves host io fs files)
    (hcs : ∀ c ∈ cs, Accepted host c.path ∧ Plain c.path)
    (hok : ∀ r ∈ (run (FsCall.perform host io) cs fs).1, r = .ok ()) :
    Serves host io (run (FsCall.perform host io) cs fs).2 (cs.foldl FsCall.after files) := by
  induction cs generalizing fs files with
  | nil => exact h
  | cons c cs ih =>
    obtain ⟨hc, hcs⟩ := List.forall_mem_cons.mp hcs
    rw [run_cons] at hok
    obtain ⟨hr, hok⟩ := List.forall_mem_cons.mp hok
    refine ih ?_ hcs hok
    cases c with
    | write path data => exact h.write hc.1 hc.2 hr
    | delete path => exact h.delete hc.1 hc.2 hr

theorem place_queryable (h : Queryable pre.toList) :
    place host io pre = rootPlace host io ++ namesOf pre.toList := by
  rw [FsEffects.place_eq, if_neg h.relative, ← walk_filter]
  apply walk_names
  intro n hn
  obtain ⟨ns, hns, hpath⟩ := h
  exact hns n (namesOf_eq hns hpath ▸ hn)

def listing (host : Host) (io : FsIo) (walkDir : WalkDir) (pre : String) (fs : FileSystem) :
    List String :=
  if Entry.isDir (entryAt host (join io.root pre.toList) fs).toOption then
    (walkDir fs (place host io pre)).filterMap (listed host io (join io.root pre.toList) pre fs)
  else []

variable (io fs) in
theorem list_eq (walkDir : WalkDir) (h : Accepted host pre) :
    answer (list host io walkDir pre) fs = (.ok (listing host io walkDir pre fs), fs) := by
  unfold FsStores.list
  rw [resolve_ok h, pure_bind, answer_bind (rfl : answer get fs = (.ok fs, fs)), listing]
  cases entryAt host (join io.root pre.toList) fs with
  | error e => rfl
  | ok entry => cases entry <;> rfl

/-- A visited file gives its key back, if the key starts with the prefix. -/
theorem listed_file (h : Serves host io fs files) (hpre : Queryable pre.toList)
    (hfull : join io.root pre.toList ≠ []) {rel : List Name} (hrel : rel ≠ [])
    (hkey : components key.toList = namesOf pre.toList ++ rel) (hfile : files key ≠ none) :
    listed host io (join io.root pre.toList) pre fs rel =
      if startsWith key pre then some key else none := by
  obtain ⟨data, hdata⟩ := Option.ne_none_iff_exists'.mp hfile
  have hplain := h.plain key hfile
  have hentry : Entry.isFile (fs.lookup (place host io pre ++ rel)) := by
    rw [place_queryable hpre, List.append_assoc, (h.mem _ data).mpr ⟨key, hkey, hdata⟩]
    rfl
  have hnames : ∀ n ∈ namesOf pre.toList ++ rel, IsName n ∧ '/' ∉ n := by
    intro n hn
    rw [← hkey] at hn
    exact ⟨hplain n hn, not_mem_of_mem_components hn⟩
  -- the path of the entry is the root, separators and the key
  obtain ⟨n, ns, rfl⟩ := List.exists_cons_of_ne_nil hrel
  have hn := hnames n (List.mem_append_right _ List.mem_cons_self)
  have hchild := spelled_child io.root hpre hfull hn.1 hn.2
  rw [List.append_cons] at hnames hkey
  have hspelled := hchild.walk (List.append_ne_nil_of_right_ne_nil _ (List.cons_ne_nil n [])) hnames
  obtain ⟨tail, hpath, htail⟩ := hspelled.suffix
  rw [← hkey, assemble_components] at htail
  have hdrop : ((n :: ns).foldl join (join io.root pre.toList)).dropPrefix? io.root = some tail := by
    rw [List.foldl_cons, hpath]
    exact List.dropPrefix?_eq_some_iff.mpr ⟨io.root, rfl, BEq.rfl⟩
  rw [listed]
  change (if Entry.isFile (fs.lookup (place host io pre ++ n :: ns)) then _ else none) = _
  rw [if_pos hentry, hdrop]
  simp only [htail, String.ofList_toList]

theorem mem_of_listed (h : Serves host io fs files) (hpre : Queryable pre.toList)
    (hfull : join io.root pre.toList ≠ []) (hdir : fs.lookup (place host io pre) = some .dir)
    {rel : List Name} (hlisted : listed host io (join io.root pre.toList) pre fs rel = some key) :
    components key.toList = namesOf pre.toList ++ rel ∧ rel ≠ [] ∧ files key ≠ none ∧
      startsWith key pre := by
  have hfile : Entry.isFile (fs.lookup (place host io pre ++ rel)) := by
    rw [listed] at hlisted
    by_contra hnot
    have hnone := (if_neg hnot).symm.trans hlisted
    exact nomatch hnone
  have hrel : rel ≠ [] := by
    rintro rfl
    rw [List.append_nil, hdir] at hfile
    exact nomatch hfile
  obtain ⟨data, hdata⟩ := file_of_isFile hfile
  rw [place_queryable hpre, List.append_assoc] at hdata
  obtain ⟨other, hother, hstored⟩ := (h.mem _ data).mp hdata
  have hsome : files other ≠ none := by
    rw [hstored]
    exact Option.some_ne_none _
  rw [listed_file h hpre hfull hrel hother hsome] at hlisted
  split at hlisted
  · next hstarts =>
    cases hlisted
    exact ⟨hother, hrel, hsome, hstarts⟩
  · cases hlisted

/-- In a directory exactly the stored keys below it are listed, each once. -/
theorem listing_dir (h : Serves host io fs files) {walkDir : WalkDir} (hwalk : Walks walkDir)
    (hpre : Queryable pre.toList) (hfull : join io.root pre.toList ≠ [])
    (hdir : fs.lookup (place host io pre) = some .dir) :
    (listing host io walkDir pre fs).Nodup ∧ ∀ key, key ∈ listing host io walkDir pre fs ↔
      files key ≠ none ∧ startsWith key pre ∧ Under pre key := by
  obtain ⟨hnodup, hvisit⟩ := hwalk fs h.wellFormed _ hdir
  have hlisting : listing host io walkDir pre fs =
      (walkDir fs (place host io pre)).filterMap
        (listed host io (join io.root pre.toList) pre fs) := by
    rw [listing, if_pos ((h.isDir_iff hpre).mpr ⟨hfull, hdir⟩)]
  rw [hlisting]
  constructor
  · apply hnodup.filterMap
    intro rel rel' key hrel hrel'
    have hkey := (mem_of_listed h hpre hfull hdir hrel).1
    have hkey' := (mem_of_listed h hpre hfull hdir hrel').1
    exact List.append_cancel_left (hkey.symm.trans hkey')
  · intro key
    rw [List.mem_filterMap]
    constructor
    · rintro ⟨rel, -, hlisted⟩
      obtain ⟨hkey, hrel, hfile, hstarts⟩ := mem_of_listed h hpre hfull hdir hlisted
      refine ⟨hfile, hstarts, ?_, ?_⟩
      · rw [hkey]
        exact List.prefix_append _ _
      · rw [hkey]
        exact fun heq => hrel (List.self_eq_append_right.mp heq)
    · rintro ⟨hfile, hstarts, ⟨rel, hkey⟩, hne⟩
      have hrel : rel ≠ [] := by
        rintro rfl
        exact hne ((List.append_nil _).symm.trans hkey)
      refine ⟨rel, ?_, ?_⟩
      · obtain ⟨data, hdata⟩ := Option.ne_none_iff_exists'.mp hfile
        apply (hvisit rel).mpr
        rw [place_queryable hpre, List.append_assoc, (h.mem _ data).mpr ⟨key, hkey.symm, hdata⟩]
        exact Option.some_ne_none _
      · rw [listed_file h hpre hfull hrel hkey.symm hfile, if_pos hstarts]

/-- Where the prefix names no directory, no stored key lies under it. -/
theorem not_under (h : Serves host io fs files) (hpre : Queryable pre.toList)
    (hdir : fs.lookup (place host io pre) ≠ some .dir) (hfile : files key ≠ none) :
    ¬ Under pre key := by
  rintro ⟨⟨rel, hkey⟩, hne⟩
  obtain ⟨data, hdata⟩ := Option.ne_none_iff_exists'.mp hfile
  have hentry := (h.mem _ data).mpr ⟨key, hkey.symm, hdata⟩
  rw [← List.append_assoc, ← place_queryable hpre] at hentry
  obtain ⟨init, last, rfl⟩ : ∃ init last, rel = init ++ [last] := by
    have hrel : rel ≠ [] := by
      rintro rfl
      exact hne ((List.append_nil _).symm.trans hkey)
    exact ⟨_, _, (List.dropLast_append_getLast hrel).symm⟩
  rw [← List.append_assoc] at hentry
  apply hdir
  apply h.wellFormed.dir_of_prefix (l := place host io pre ++ init)
  · apply h.wellFormed _ last
    rw [hentry]
    exact Option.some_ne_none _
  · exact List.prefix_append _ _

/-- A listing over a directory answers the prefix query exactly if every stored key that
starts with the prefix lies in the directory that the prefix names. -/
theorem list_answers_iff {walkDir : WalkDir} (hwalk : Walks walkDir) (h₀ : Fresh host io fs)
    {cs : List FsCall} (hcs : ∀ c ∈ cs, Accepted host c.path ∧ Plain c.path)
    (hok : ∀ r ∈ (run (FsCall.perform host io) cs fs).1, r = .ok ())
    (haccepted : Accepted host pre) (hpre : Queryable pre.toList) :
    (∃ names fs', answer (list host io walkDir pre) (run (FsCall.perform host io) cs fs).2 =
      (.ok names, fs') ∧ Names (stored cs) pre names) ↔
    ∀ key, stored cs key ≠ none → startsWith key pre →
      join io.root pre.toList ≠ [] ∧ Under pre key := by
  have h := serves_of_run h₀.serves hcs hok
  generalize hfs' : (run (FsCall.perform host io) cs fs).2 = fs' at h ⊢
  change Serves host io fs' (stored cs) at h
  have hlist := list_eq io fs' walkDir haccepted
  have hreturn : (∃ names fs'', answer (list host io walkDir pre) fs' = (.ok names, fs'') ∧
      Names (stored cs) pre names) ↔ Names (stored cs) pre (listing host io walkDir pre fs') := by
    rw [hlist]
    constructor
    · rintro ⟨names, fs'', heq, hnames⟩
      cases heq
      exact hnames
    · intro hnames
      exact ⟨_, _, rfl, hnames⟩
  rw [hreturn]
  by_cases hdir : join io.root pre.toList ≠ [] ∧ fs'.lookup (place host io pre) = some .dir
  · obtain ⟨hnodup, hmem⟩ := listing_dir h hwalk hpre hdir.1 hdir.2
    constructor
    · intro hnames key hfile hstarts
      exact ⟨hdir.1, ((hmem key).mp ((hnames.mem key).mpr ⟨hfile, hstarts⟩)).2.2⟩
    · intro hunder
      refine ⟨hnodup, fun key => ?_⟩
      rw [hmem]
      constructor
      · exact fun hkey => ⟨hkey.1, hkey.2.1⟩
      · exact fun hkey => ⟨hkey.1, hkey.2, (hunder key hkey.1 hkey.2).2⟩
  · -- nothing is listed, and no stored key lies under the prefix
    have hempty : listing host io walkDir pre fs' = [] := by
      rw [listing, if_neg (mt (h.isDir_iff hpre).mp hdir)]
    rw [hempty]
    constructor
    · intro hnames key hfile hstarts
      exact absurd ((hnames.mem key).mpr ⟨hfile, hstarts⟩) List.not_mem_nil
    · intro hunder
      refine ⟨List.nodup_nil, fun key => ⟨fun hmem => absurd hmem List.not_mem_nil, fun hkey => ?_⟩⟩
      obtain ⟨hfull, hkeyUnder⟩ := hunder key hkey.1 hkey.2
      exact absurd hkeyUnder (not_under h hpre (fun heq => hdir ⟨hfull, heq⟩) hkey.1)

def dataIo : FsIo := ⟨"/data".toList⟩

/-- The entries at or below a directory, in the order of the file system. -/
def visit : WalkDir := fun fs l => fs.keys.filterMap fun k => k.dropPrefix? l

theorem visit_walks : Walks visit := by
  intro fs _ l _
  have hdrop : ∀ k rel : Location, k.dropPrefix? l = some rel ↔ k = l ++ rel := by
    intro k rel
    rw [List.dropPrefix?_eq_some_iff]
    constructor
    · rintro ⟨l', hk, hl'⟩
      rw [hk, eq_of_beq hl']
    · intro hk
      exact ⟨l, hk, BEq.rfl⟩
  constructor
  · apply fs.keys_nodup.filterMap
    intro k k' rel hk hk'
    rw [(hdrop k rel).mp hk, (hdrop k' rel).mp hk']
  · intro rel
    rw [visit, List.mem_filterMap]
    constructor
    · rintro ⟨k, hk, hrel⟩
      rw [← (hdrop k rel).mp hrel]
      exact fun hnone => AList.lookup_eq_none.mp hnone hk
    · intro hsome
      refine ⟨l ++ rel, ?_, (hdrop _ rel).mpr rfl⟩
      by_contra hmem
      exact hsome (AList.lookup_eq_none.mpr hmem)

def emptyData : FileSystem :=
  ((∅ : FileSystem).insert [] .dir).insert ["data".toList] .dir

theorem emptyData_lookup (l : Location) : emptyData.lookup l =
    if l = ["data".toList] ∨ l = [] then some .dir else none := by
  rw [emptyData]
  by_cases hdata : l = ["data".toList]
  · rw [hdata, AList.lookup_insert, if_pos (.inl rfl)]
  · rw [AList.lookup_insert_ne hdata]
    by_cases hroot : l = []
    · rw [hroot, AList.lookup_insert, if_pos (.inr rfl)]
    · rw [AList.lookup_insert_ne hroot, if_neg (not_or.mpr ⟨hdata, hroot⟩), AList.lookup_empty]

theorem emptyData_fresh : Fresh asciiHost dataIo emptyData := by
  have hroot : rootPlace asciiHost dataIo = ["data".toList] := by decide +kernel
  refine ⟨⟨?_, ?_⟩, ?_⟩
  · intro l n hn
    rw [emptyData_lookup] at hn ⊢
    split at hn
    · next hl =>
      have hnil : l = [] := by
        cases hl with
        | inl hl => exact (List.append_eq_singleton_iff.mp hl).elim And.left fun h => nomatch h.2
        | inr hl => exact (List.append_eq_nil_iff.mp hl).1
      rw [if_pos (.inr hnil)]
    · exact absurd rfl hn
  · intro l hl
    have htrail : trail (startOf asciiHost.cwd dataIo.root) (components dataIo.root) =
        [[], [], ["data".toList]] := by decide +kernel
    rw [htrail] at hl
    rw [emptyData_lookup, if_pos]
    simpa [or_comm] using hl
  · rintro l ⟨hbegins, hne⟩
    rw [hroot] at hbegins hne
    rw [emptyData_lookup, if_neg]
    rintro (hl | hl)
    · exact hne hl.symm
    · rw [hl] at hbegins
      exact nomatch List.prefix_nil.mp hbegins

/-- A prefix that names a directory is answered. -/
theorem list_answers_iff_directory : ∃ names fs', answer (list asciiHost dataIo visit "a/")
    (run (FsCall.perform asciiHost dataIo) [.write "a/b" [7]] emptyData).2 = (.ok names, fs') ∧
    Names (stored [.write "a/b" [7]]) "a/" names := by
  refine (list_answers_iff visit_walks emptyData_fresh ?_ ?_ ?_ ?_).mpr ?_
  · intro c hc
    cases List.mem_singleton.mp hc
    exact ⟨by decide +kernel, by decide +kernel⟩
  · have hreplies : (run (FsCall.perform asciiHost dataIo) [.write "a/b" [7]] emptyData).1 =
        [.ok ()] := by decide +kernel
    rw [hreplies]
    exact fun r hr => List.mem_singleton.mp hr
  · decide +kernel
  · exact ⟨["a".toList], by decide +kernel, .inr (by decide +kernel)⟩
  · intro key hkey _
    have heq : key = "a/b" := by
      by_contra hne
      apply hkey
      change Function.update (fun _ => none) "a/b" (some [7]) key = none
      rw [Function.update_of_ne hne]
    rw [heq]
    exact ⟨by decide +kernel, by decide +kernel, by decide +kernel⟩

/-- A prefix that ends inside a file name is not answered. -/
theorem list_misses_sibling :
    (run (FsCall.perform asciiHost dataIo) [.write "ab" [7]] emptyData).1 = [.ok ()] ∧
    (Accepted asciiHost "ab" ∧ Plain "ab") ∧ Accepted asciiHost "a" ∧ Queryable "a".toList ∧
    ¬ ∃ names fs', answer (list asciiHost dataIo visit "a")
      (run (FsCall.perform asciiHost dataIo) [.write "ab" [7]] emptyData).2 = (.ok names, fs') ∧
      Names (stored [.write "ab" [7]]) "a" names := by
  have haccepted : Accepted asciiHost "a" := by decide +kernel
  refine ⟨by decide +kernel, ⟨by decide +kernel, by decide +kernel⟩, haccepted,
    ⟨["a".toList], by decide +kernel, .inl (by decide +kernel)⟩, ?_⟩
  rintro ⟨names, fs', hanswer, hnames⟩
  have hempty : listing asciiHost dataIo visit "a"
      (run (FsCall.perform asciiHost dataIo) [.write "ab" [7]] emptyData).2 = [] := by
    decide +kernel
  rw [list_eq _ _ _ haccepted, hempty] at hanswer
  cases hanswer
  have hfile : stored [.write "ab" [7]] "ab" ≠ none := by decide +kernel
  exact nomatch (hnames.mem "ab").mpr ⟨hfile, by decide +kernel⟩

end Chton.FsListings
