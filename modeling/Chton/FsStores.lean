import Chton.FileStores
import Chton.PathTrails
import Mathlib.Data.List.AList

/-!
# Files in a directory

`FsIo` resolves a key to a path under its root directory and leaves the rest to the
operating system, which follows a path component by component through directories. The file
system is ideal: a tree without links and without failures of the medium.

What is not part of the repository is given: the table of alphanumeric characters and the
current directory in `Host`, and the entries of a directory that `walkdir` visits.
-/

namespace Chton.FsStores
open OutcomePrograms CallRuns ByteRegions TextBytes LexicalPaths PathTrails FileStores

inductive Entry where
  | file (data : Bytes)
  | dir

abbrev FileSystem := AList fun _ : Location => Entry

/-- The kinds of errors of `std::fs` that can occur here. -/
inductive OsError where
  | notFound
  | notADirectory
  | isADirectory
  | alreadyExists
  deriving DecidableEq

inductive FsError where
  | invalidCharacter (c : Char) (path : String)
  | read (path : String) (error : OsError)
  | mkdir (path : String) (error : OsError)
  | write (path : String) (error : OsError)
  | delete (path : String) (error : OsError)
  deriving DecidableEq

structure Host where
  isAlphanumeric : Char → Bool
  cwd : Location

structure FsIo where
  root : List Char

abbrev OsProgram (α : Type) := EStateM OsError FileSystem α

abbrev FsProgram (α : Type) := EStateM FsError FileSystem α

def Entry.isFile : Option Entry → Bool
  | some (.file _) => true
  | _ => false

def Entry.isDir : Option Entry → Bool
  | some .dir => true
  | _ => false

/-- What stops a path that passes these locations: the first that is no directory. -/
def obstacle (ls : List Location) (fs : FileSystem) : Option OsError :=
  (ls.find? fun l => !Entry.isDir (fs.lookup l)).map fun l =>
    if Entry.isFile (fs.lookup l) then .notADirectory else .notFound

def follow (start : Location) (ns : List Name) (fs : FileSystem) : Except OsError Entry :=
  match obstacle (way start ns) fs, fs.lookup (walk start ns) with
  | some e, _ => .error e
  | none, some entry => .ok entry
  | none, none => .error .notFound

variable (host : Host) (io : FsIo)

/-- The entry of a path; nothing is found under the empty path. -/
def entryAt (path : List Char) (fs : FileSystem) : Except OsError Entry :=
  if path = [] then .error .notFound else follow (startOf host.cwd path) (components path) fs

/-- `std::fs::read`. -/
def readFile (path : List Char) (fs : FileSystem) : Except OsError Bytes :=
  match entryAt host path fs with
  | .ok (.file data) => .ok data
  | .ok .dir => .error .isADirectory
  | .error e => .error e

def mkdir (start : Location) (ns : List Name) : OsProgram Unit := fun fs =>
  match obstacle (way start ns) fs, fs.lookup (walk start ns) with
  | some e, _ => .error e fs
  | none, some _ => .error .alreadyExists fs
  | none, none => .ok () (fs.insert (walk start ns) .dir)

/-- An error of `mkdir` is passed over where `Path::is_dir` holds. -/
def unlessDir (start : Location) (ns : List Name) (e : OsError) : OsProgram Unit := do
  let fs ← get
  if Entry.isDir (follow start ns fs).toOption then pure () else throw e

/-- `std::fs::create_dir_all`; the components are given from the last one on. -/
def createDirAll (start : Location) : List Name → OsProgram Unit
  | [] => pure ()
  | n :: ns =>
    tryCatch (mkdir start (n :: ns).reverse) fun e =>
      if e = .notFound then do
        createDirAll start ns
        tryCatch (mkdir start (n :: ns).reverse) (unlessDir start (n :: ns).reverse)
      else unlessDir start (n :: ns).reverse e

/-- `std::fs::write`; a path that ends with a separator names no file. -/
def writeFile (path : List Char) (data : Bytes) : OsProgram Unit := fun fs =>
  let l := location host.cwd path
  match obstacle (way (startOf host.cwd path) ((components path).rdropWhile (· = []))) fs with
  | some e => .error e fs
  | none =>
    if path = [] then .error .notFound fs
    else if path.getLast? = some '/' ∨ Entry.isDir (fs.lookup l) then .error .isADirectory fs
    else .ok () (fs.insert l (.file data))

/-- `std::fs::remove_file`. -/
def removeFile (path : List Char) : OsProgram Unit := fun fs =>
  match entryAt host path fs with
  | .ok (.file _) => .ok () (fs.erase (location host.cwd path))
  | .ok .dir => .error .isADirectory fs
  | .error e => .error e fs

/-- The components of `Path::parent`. -/
def parentOf (path : List Char) : Option (List Name) :=
  let ns := (components path).filter fun n => ¬ stay n
  if ns = [] then none else some ns.dropLast

def allowed (c : Char) : Bool :=
  c = '/' || c = '_' || c = '-' || c = '.' || host.isAlphanumeric c

def resolve (path : String) : FsProgram (List Char) :=
  match path.toList.find? fun c => !allowed host c with
  | some c => throw (.invalidCharacter c path)
  | none => pure (join io.root path.toList)

/-- The `map_err` of an operation of the system. -/
def mapErr {α : Type} (f : OsError → FsError) (x : OsProgram α) : FsProgram α :=
  focus id (fun fs _ => fs) f x

def read (path : String) : FsProgram (Option Bytes) := do
  let full ← resolve host io path
  let fs ← get
  match readFile host full fs with
  | .ok data => pure (some data)
  | .error .notFound => pure none
  | .error e => throw (.read path e)

def write (path : String) (data : Bytes) : FsProgram Unit := do
  let full ← resolve host io path
  match parentOf full with
  | some ns => mapErr (.mkdir path) (createDirAll (startOf host.cwd full) ns.reverse)
  | none => pure ()
  mapErr (.write path) (writeFile host full data)

def delete (path : String) : FsProgram Unit := do
  let full ← resolve host io path
  let fs ← get
  if (entryAt host full fs).isOk then mapErr (.delete path) (removeFile host full) else pure ()

/-- The visited entries of a directory, by the names that lead to them from there. -/
abbrev WalkDir := FileSystem → Location → List (List Name)

def listed (full : List Char) (pre : String) (fs : FileSystem) (rel : List Name) : Option String :=
  if Entry.isFile (fs.lookup (location host.cwd full ++ rel)) then
    match (rel.foldl join full).dropPrefix? io.root with
    | some path =>
      let name := String.ofList (path.dropWhile (· = '/'))
      if startsWith name pre then some name else none
    | none => none
  else none

def list (walkDir : WalkDir) (pre : String) : FsProgram (List String) := do
  let full ← resolve host io pre
  let fs ← get
  if (entryAt host full fs).isOk then
    if Entry.isDir (entryAt host full fs).toOption then
      pure ((walkDir fs (location host.cwd full)).filterMap (listed host io full pre fs))
    else pure []
  else pure []

def WellFormed (fs : FileSystem) : Prop :=
  ∀ l n, fs.lookup (l ++ [n]) ≠ none → fs.lookup l = some .dir

/-- Missing directories have been made at these locations. -/
structure Made (ls : List Location) (fs fs' : FileSystem) : Prop where
  dirs : ∀ l ∈ ls, fs'.lookup l = some .dir
  same : ∀ l, l ∉ ls → fs'.lookup l = fs.lookup l
  stay : ∀ l e, fs.lookup l = some e → fs'.lookup l = some e

variable {host io} {fs fs₁ fs' : FileSystem} {l start : Location} {path : List Char}
  {ls : List Location} {ns : List Name}

theorem WellFormed.dir_of_prefix (h : WellFormed fs) {l' : Location} (hl : fs.lookup l = some .dir)
    (hbegins : l' <+: l) : fs.lookup l' = some .dir := by
  induction l using List.reverseRecOn with
  | nil =>
    rw [List.prefix_nil.mp hbegins]
    exact hl
  | append_singleton l n ih =>
    cases List.prefix_concat_iff.mp hbegins with
    | inl heq =>
      rw [heq]
      exact hl
    | inr hbegins =>
      refine ih (h l n ?_) hbegins
      rw [hl]
      exact Option.some_ne_none _

theorem WellFormed.missing_below (h : WellFormed fs) {l' : Location} (hl : fs.lookup l = none)
    (hbegins : l <+: l') : fs.lookup l' = none := by
  obtain ⟨rest, rfl⟩ := hbegins
  induction rest using List.reverseRecOn with
  | nil => rwa [List.append_nil]
  | append_singleton rest n ih =>
    by_contra hsome
    rw [← List.append_assoc] at hsome
    exact nomatch ih.symm.trans (h _ _ hsome)

theorem WellFormed.dir_above (h : WellFormed fs) {l' : Location} (hl : fs.lookup l ≠ none)
    (hbegins : l' <+: l) (hne : l' ≠ l) : fs.lookup l' = some .dir := by
  obtain ⟨init, n, rfl⟩ : ∃ init n, l = init ++ [n] := by
    have hlne : l ≠ [] := by
      rintro rfl
      exact hne (List.prefix_nil.mp hbegins)
    exact ⟨_, _, (List.dropLast_append_getLast hlne).symm⟩
  exact h.dir_of_prefix (h init n hl) ((List.prefix_concat_iff.mp hbegins).resolve_left hne)

theorem dir_of_isDir {e : Option Entry} (h : Entry.isDir e) : e = some .dir := by
  cases e with
  | none => exact nomatch h
  | some e =>
    cases e with
    | file data => exact nomatch h
    | dir => rfl

theorem file_of_isFile {e : Option Entry} (h : Entry.isFile e) : ∃ data, e = some (.file data) := by
  cases e with
  | none => exact nomatch h
  | some e =>
    cases e with
    | file data => exact ⟨data, rfl⟩
    | dir => exact nomatch h

theorem obstacle_none : obstacle ls fs = none ↔ ∀ l ∈ ls, fs.lookup l = some .dir := by
  rw [obstacle, Option.map_eq_none_iff, List.find?_eq_none]
  apply forall₂_congr
  intro l _
  cases h : fs.lookup l with
  | none => simp [Entry.isDir]
  | some e => cases e <;> simp [Entry.isDir]

/-- A path is stopped by a file, or by a missing entry, behind directories. -/
theorem obstacle_some {e : OsError} (h : obstacle ls fs = some e) :
    ∃ pre l post, ls = pre ++ l :: post ∧ (∀ l' ∈ pre, fs.lookup l' = some .dir) ∧
      ((e = .notADirectory ∧ Entry.isFile (fs.lookup l)) ∨ (e = .notFound ∧ fs.lookup l = none)) := by
  obtain ⟨l, hfind, rfl⟩ := Option.map_eq_some_iff.mp h
  obtain ⟨hl, pre, post, hsplit, hpre⟩ := List.find?_eq_some_iff_append.mp hfind
  refine ⟨pre, l, post, hsplit, fun l' hl' => dir_of_isDir (by simpa using hpre l' hl'), ?_⟩
  cases hentry : fs.lookup l with
  | none => exact .inr ⟨rfl, rfl⟩
  | some entry =>
    cases entry with
    | file data => exact .inl ⟨rfl, rfl⟩
    | dir => simp [hentry, Entry.isDir] at hl

theorem obstacle_append {ls' : List Location} (h : ∀ l ∈ ls, fs.lookup l = some .dir) :
    obstacle (ls ++ ls') fs = obstacle ls' fs := by
  have hnone : ls.find? (fun l => !Entry.isDir (fs.lookup l)) = none := by
    rw [List.find?_eq_none]
    intro l hl
    simp [h l hl, Entry.isDir]
  rw [obstacle, List.find?_append, hnone, Option.none_or]
  rfl

theorem obstacle_file (h : Entry.isFile (fs.lookup l)) :
    obstacle (l :: ls) fs = some .notADirectory := by
  obtain ⟨data, hdata⟩ := file_of_isFile h
  simp [obstacle, hdata, Entry.isDir, Entry.isFile]

theorem obstacle_missing (h : fs.lookup l = none) : obstacle (l :: ls) fs = some .notFound := by
  simp [obstacle, h, Entry.isDir, Entry.isFile]

/-- Components lead nowhere if they come to something missing behind directories. -/
theorem follow_notFound_iff : follow start ns fs = .error .notFound ↔
    ∃ pre l post, trail start ns = pre ++ l :: post ∧ (∀ l' ∈ pre, fs.lookup l' = some .dir) ∧
      fs.lookup l = none := by
  constructor
  · intro h
    cases hstop : obstacle (way start ns) fs with
    | none =>
      refine ⟨way start ns, walk start ns, [], rfl, obstacle_none.mp hstop, ?_⟩
      rw [follow, hstop] at h
      cases hl : fs.lookup (walk start ns) with
      | none => rfl
      | some e =>
        rw [hl] at h
        cases h
    | some e =>
      rw [follow, hstop] at h
      cases h
      obtain ⟨pre, l, post, hsplit, hpre, ⟨hfalse, -⟩ | ⟨-, hl⟩⟩ := obstacle_some hstop
      · cases hfalse
      · refine ⟨pre, l, post ++ [walk start ns], ?_, hpre, hl⟩
        rw [trail, hsplit, List.append_assoc, List.cons_append]
  · rintro ⟨pre, l, post, hsplit, hpre, hl⟩
    rcases trail_cases hsplit with ⟨rfl, rfl, -⟩ | ⟨rest, hway⟩
    · rw [follow, obstacle_none.mpr hpre, hl]
    · rw [follow, hway, obstacle_append hpre, obstacle_missing hl]

theorem follow_file {pre post : List Location} (hsplit : trail start ns = pre ++ l :: post)
    (hpre : ∀ l' ∈ pre, fs.lookup l' = some .dir) (hl : Entry.isFile (fs.lookup l)) :
    follow start ns fs ≠ .error .notFound := by
  rcases trail_cases hsplit with ⟨rfl, rfl, -⟩ | ⟨rest, hway⟩
  · obtain ⟨data, hdata⟩ := file_of_isFile hl
    rw [follow, obstacle_none.mpr hpre, hdata]
    exact fun h => nomatch h
  · rw [follow, hway, obstacle_append hpre, obstacle_file hl]
    exact fun h => nomatch h

theorem follow_dirs (h : ∀ l ∈ trail start ns, fs.lookup l = some .dir) :
    follow start ns fs = .ok .dir := by
  rw [follow, obstacle_none.mpr fun l hl => h l (List.mem_append_left _ hl), h _ end_mem_trail]

theorem follow_ok {entry : Entry} (h : follow start ns fs = .ok entry) :
    (∀ l ∈ way start ns, fs.lookup l = some .dir) ∧ fs.lookup (walk start ns) = some entry := by
  rw [follow] at h
  split at h
  · cases h
  · next hnone hentry =>
    cases h
    exact ⟨obstacle_none.mp hnone, hentry⟩
  · cases h

theorem follow_stays (h : ∀ l ∈ trail start ns, ∀ e, fs.lookup l = some e → fs'.lookup l = some e)
    (hfound : follow start ns fs ≠ .error .notFound) : follow start ns fs' = follow start ns fs := by
  have hway : ∀ l ∈ way start ns, ∀ e, fs.lookup l = some e → fs'.lookup l = some e :=
    fun l hl => h l (List.mem_append_left _ hl)
  cases hstop : obstacle (way start ns) fs with
  | some e =>
    obtain ⟨pre, l, post, hsplit, hpre, hcases⟩ := obstacle_some hstop
    rw [hsplit] at hway
    rcases hcases with ⟨rfl, hfile⟩ | ⟨rfl, -⟩
    · obtain ⟨data, hdata⟩ := file_of_isFile hfile
      have hpre' : ∀ l' ∈ pre, fs'.lookup l' = some .dir :=
        fun l' hl' => hway l' (List.mem_append_left _ hl') _ (hpre l' hl')
      have hl' := hway l (List.mem_append_right _ List.mem_cons_self) _ hdata
      rw [follow, follow, hstop, hsplit, obstacle_append hpre', obstacle_file (by rw [hl']; rfl)]
    · rw [follow, hstop] at hfound
      exact absurd rfl hfound
  | none =>
    have hdirs := obstacle_none.mp hstop
    have hstop' : obstacle (way start ns) fs' = none :=
      obstacle_none.mpr fun l hl => hway l hl _ (hdirs l hl)
    rw [follow, hstop] at hfound
    rw [follow, follow, hstop, hstop']
    cases hl : fs.lookup (walk start ns) with
    | none =>
      rw [hl] at hfound
      exact absurd rfl hfound
    | some e => rw [h _ end_mem_trail e hl]

theorem follow_congr (h : ∀ l ∈ trail start ns, fs'.lookup l = fs.lookup l) :
    follow start ns fs' = follow start ns fs := by
  by_cases hfound : follow start ns fs = .error .notFound
  · obtain ⟨pre, l, post, hsplit, hpre, hl⟩ := follow_notFound_iff.mp hfound
    rw [hsplit] at h
    rw [hfound]
    refine follow_notFound_iff.mpr ⟨pre, l, post, hsplit, fun l' hl' => ?_, ?_⟩
    · rw [h l' (List.mem_append_left _ hl'), hpre l' hl']
    · rw [h l (List.mem_append_right _ List.mem_cons_self), hl]
  · exact follow_stays (fun l hl e he => (h l hl).trans he) hfound

theorem made_of_dirs (h : ∀ l ∈ ls, fs.lookup l = some .dir) : Made ls fs fs :=
  ⟨h, fun _ _ => rfl, fun _ _ hl => hl⟩

theorem Made.concat (h : Made ls fs fs') (hl : fs'.lookup l = some .dir) :
    Made (ls ++ [l]) fs fs' where
  dirs l' hl' := by
    rcases List.mem_append.mp hl' with hl' | hl'
    · exact h.dirs l' hl'
    · rw [List.mem_singleton.mp hl']
      exact hl
  same l' hl' := h.same l' fun hmem => hl' (List.mem_append_left _ hmem)
  stay := h.stay

theorem Made.insert (h : Made ls fs fs') (hl : fs'.lookup l = none) :
    Made (ls ++ [l]) fs (fs'.insert l .dir) where
  dirs l' hl' := by
    by_cases heq : l' = l
    · rw [heq, AList.lookup_insert]
    · rw [AList.lookup_insert_ne heq]
      apply h.dirs
      simpa [heq] using hl'
  same l' hl' := by
    obtain ⟨hmem, hne⟩ := not_or.mp (mt List.mem_append.mpr hl')
    rw [AList.lookup_insert_ne (fun heq => hne (List.mem_singleton.mpr heq)), h.same l' hmem]
  stay l' e he := by
    have hne : l' ≠ l := by
      rintro rfl
      exact nomatch hl.symm.trans (h.stay _ e he)
    rw [AList.lookup_insert_ne hne]
    exact h.stay l' e he

theorem Made.file (h : Made ls fs fs') {data : Bytes} :
    fs'.lookup l = some (.file data) ↔ fs.lookup l = some (.file data) := by
  refine ⟨fun hfile => ?_, h.stay l _⟩
  by_cases hl : l ∈ ls
  · exact nomatch (h.dirs l hl).symm.trans hfile
  · rwa [h.same l hl] at hfile

theorem follow_isDir (h : ∀ l ∈ way start ns, fs.lookup l = some .dir)
    (hl : fs.lookup (walk start ns) = some .dir) :
    Entry.isDir (follow start ns fs).toOption := by
  rw [follow, obstacle_none.mpr h, hl]
  rfl

theorem not_follow_isDir (h : ∀ l ∈ way start ns, fs.lookup l = some .dir)
    (hl : Entry.isFile (fs.lookup (walk start ns))) :
    ¬ Entry.isDir (follow start ns fs).toOption := by
  obtain ⟨data, hdata⟩ := file_of_isFile hl
  rw [follow, obstacle_none.mpr h, hdata]
  exact Bool.noConfusion

/-- `mkdir` below directories, passing over a directory that is there. -/
theorem mkdir_spec (h : Made (way start ns) fs fs') :
    Ensures (tryCatch (mkdir start ns) (unlessDir start ns)) fs'
      (fun _ fs₁ => Made (trail start ns) fs fs₁)
      fun _ fs₁ => Entry.isFile (fs.lookup (walk start ns)) ∧ Made (way start ns) fs fs₁ := by
  rw [ensures_tryCatch]
  have hway := obstacle_none.mpr h.dirs
  cases hl : fs'.lookup (walk start ns) with
  | none =>
    have hmkdir : mkdir start ns fs' = .ok () (fs'.insert (walk start ns) .dir) := by
      rw [mkdir, hway, hl]
    exact (ensures_of_ok hmkdir).mpr (h.insert hl)
  | some entry =>
    have hmkdir : mkdir start ns fs' = .error .alreadyExists fs' := by rw [mkdir, hway, hl]
    rw [ensures_of_error hmkdir, unlessDir, ensures_bind, ensures_get]
    apply ensures_ite
    · intro hdir
      cases entry with
      | file data => exact absurd hdir (not_follow_isDir h.dirs (by rw [hl]; rfl))
      | dir => exact ensures_pure.mpr (h.concat hl)
    · intro hdir
      cases entry with
      | file data =>
        refine ensures_throw.mpr ⟨?_, h⟩
        rw [h.file.mp hl]
        rfl
      | dir => exact absurd (follow_isDir h.dirs hl) hdir

/-- Below a directory, all the directories of a path are made up to the first file. -/
theorem createDirAll_spec (hstart : fs.lookup start = some .dir) (ns : List Name) :
    Ensures (createDirAll start ns) fs (fun _ fs' => Made (trail start ns.reverse) fs fs')
      fun _ fs' => ∃ pre l post, trail start ns.reverse = pre ++ l :: post ∧
        Entry.isFile (fs.lookup l) ∧ Made pre fs fs' := by
  induction ns with
  | nil =>
    refine ensures_pure.mpr (made_of_dirs fun l hl => ?_)
    rw [List.mem_singleton.mp hl]
    exact hstart
  | cons n ns ih =>
    have hway : way start (n :: ns).reverse = trail start ns.reverse := by
      rw [List.reverse_cons, way_concat]
    have hend : ∀ {fs'}, Made (way start (n :: ns).reverse) fs fs' →
        Ensures (tryCatch (mkdir start (n :: ns).reverse) (unlessDir start (n :: ns).reverse)) fs'
          (fun _ fs' => Made (trail start (n :: ns).reverse) fs fs')
          fun _ fs' => ∃ pre l post, trail start (n :: ns).reverse = pre ++ l :: post ∧
            Entry.isFile (fs.lookup l) ∧ Made pre fs fs' :=
      fun h => (mkdir_spec h).mono (fun _ _ hmade => hmade)
        fun _ _ he => ⟨_, _, [], rfl, he⟩
    cases hstop : obstacle (way start (n :: ns).reverse) fs with
    | none =>
      have hdirect := ensures_tryCatch.mp (hend (made_of_dirs (obstacle_none.mp hstop)))
      rw [createDirAll, ensures_tryCatch]
      cases hl : fs.lookup (walk start (n :: ns).reverse) with
      | none =>
        have hmkdir : mkdir start (n :: ns).reverse fs =
            .ok () (fs.insert (walk start (n :: ns).reverse) .dir) := by rw [mkdir, hstop, hl]
        exact (ensures_of_ok hmkdir).mpr ((ensures_of_ok hmkdir).mp hdirect)
      | some entry =>
        have hmkdir : mkdir start (n :: ns).reverse fs = .error .alreadyExists fs := by
          rw [mkdir, hstop, hl]
        exact (ensures_of_error hmkdir).mpr ((ensures_of_error hmkdir).mp hdirect)
    | some e =>
      have hmkdir : mkdir start (n :: ns).reverse fs = .error e fs := by rw [mkdir, hstop]
      rw [createDirAll, ensures_tryCatch, ensures_of_error hmkdir]
      obtain ⟨pre, l, post, hsplit, hpre, hcases⟩ := obstacle_some hstop
      rcases hcases with ⟨rfl, hfile⟩ | ⟨rfl, -⟩
      · rw [if_neg (by decide), unlessDir, ensures_bind, ensures_get]
        have hnot : ¬ Entry.isDir (follow start (n :: ns).reverse fs).toOption := by
          rw [follow, hstop]
          exact Bool.noConfusion
        rw [if_neg hnot, ensures_throw]
        refine ⟨pre, l, post ++ [walk start (n :: ns).reverse], ?_, hfile, made_of_dirs hpre⟩
        rw [trail, hsplit, List.append_assoc, List.cons_append]
      · rw [if_pos rfl]
        refine ih.bind (fun _ fs' hmade => hend (hway ▸ hmade)) ?_
        intro _ fs' he
        obtain ⟨pre, l, post, hsplit, hfile, hmade⟩ := he
        refine ⟨pre, l, post ++ [walk start (n :: ns).reverse], ?_, hfile, hmade⟩
        rw [trail, hway, hsplit, List.append_assoc, List.cons_append]

/-- Directories that were there need not be made. -/
theorem Made.of_append {front : List Location} (h : Made (front ++ ls) fs fs')
    (hfront : ∀ l ∈ front, fs.lookup l = some .dir) : Made ls fs fs' where
  dirs l hl := h.dirs l (List.mem_append_right _ hl)
  same l hl := by
    by_cases hmem : l ∈ front
    · rw [h.stay l _ (hfront l hmem), hfront l hmem]
    · exact h.same l fun happend => (List.mem_append.mp happend).elim hmem hl
  stay := h.stay

/-- Directories made on a trail leave every entry in a directory. -/
theorem Made.wellFormed (hw : WellFormed fs) (hstart : fs.lookup start = some .dir)
    (h : Made (trail start ns) fs fs') : WellFormed fs' := by
  intro l n hn
  by_cases hmem : l ++ [n] ∈ trail start ns
  · rcases mem_trail_of_above hmem (List.prefix_append l [n]) with hl | habove
    · exact h.dirs l hl
    · exact h.stay l _ (hw.dir_of_prefix hstart habove)
  · rw [h.same _ hmem] at hn
    exact h.stay l _ (hw l n hn)

/-- What keeps a file from being written at a path. -/
def Unwritable (host : Host) (path : List Char) (fs : FileSystem) : Prop :=
  (∃ l ∈ way (startOf host.cwd path) (components path), fs.lookup l ≠ some .dir) ∨
    path = [] ∨ path.getLast? = some '/' ∨ fs.lookup (location host.cwd path) = some .dir

variable (host path) in
theorem writeFile_spec (fs : FileSystem) (data : Bytes) : Ensures (writeFile host path data) fs
    (fun _ fs' => ¬ Unwritable host path fs ∧
      fs' = fs.insert (location host.cwd path) (.file data))
    fun _ fs' => fs' = fs ∧ Unwritable host path fs := by
  cases hstop : obstacle (way (startOf host.cwd path)
      ((components path).rdropWhile (· = []))) fs with
  | some e =>
    have hwrite : writeFile host path data fs = .error e fs := by
      rw [writeFile]
      simp only [hstop]
    refine (ensures_of_error hwrite).mpr ⟨rfl, .inl ?_⟩
    obtain ⟨rest, hrest⟩ := List.rdropWhile_prefix (p := (· = [])) (components path)
    by_contra hdirs
    push Not at hdirs
    have hnone : obstacle (way (startOf host.cwd path)
        ((components path).rdropWhile (· = []))) fs = none := by
      apply obstacle_none.mpr
      intro l hl
      apply hdirs l
      rw [← hrest, way_append]
      exact List.mem_append_left _ hl
    exact nomatch hstop.symm.trans hnone
  | none =>
    rw [obstacle_none] at hstop
    have hwrite : writeFile host path data fs =
        if path = [] then .error .notFound fs
        else if path.getLast? = some '/' ∨ Entry.isDir (fs.lookup (location host.cwd path)) then
          .error .isADirectory fs
        else .ok () (fs.insert (location host.cwd path) (.file data)) := by
      rw [writeFile]
      simp only [obstacle_none.mpr hstop]
    split at hwrite
    · next hnil => exact (ensures_of_error hwrite).mpr ⟨rfl, .inr (.inl hnil)⟩
    · next hpath =>
      split at hwrite
      · next hends =>
        exact (ensures_of_error hwrite).mpr ⟨rfl, .inr (.inr (hends.imp_right dir_of_isDir))⟩
      · next hends =>
        obtain ⟨hlast, hdir⟩ := not_or.mp hends
        refine (ensures_of_ok hwrite).mpr ⟨?_, rfl⟩
        rw [components_rdropWhile hpath hlast] at hstop
        rintro (⟨l, hl, hne⟩ | hnil | hsep | hisDir)
        · exact hne (hstop l hl)
        · exact hpath hnil
        · exact hlast hsep
        · exact hdir (by rw [hisDir]; rfl)

theorem insert_wellFormed {data : Bytes} (hw : WellFormed fs) (hl : fs.lookup l ≠ some .dir)
    (hparent : fs.lookup l ≠ none ∨ fs.lookup l.dropLast = some .dir) :
    WellFormed (fs.insert l (.file data)) := by
  intro m n hn
  have hne : l ≠ m ++ [n] → m ≠ l := by
    intro hne heq
    rw [AList.lookup_insert_ne (Ne.symm hne)] at hn
    exact hl (heq ▸ hw m n hn)
  by_cases heq : l = m ++ [n]
  · have hm : m ≠ l := by
      rw [heq]
      intro h
      exact absurd (congrArg List.length h) (by simp)
    rw [AList.lookup_insert_ne hm]
    rw [heq, List.dropLast_concat] at hparent
    cases hparent with
    | inl hsome => exact hw m n hsome
    | inr hdir => exact hdir
  · rw [AList.lookup_insert_ne (hne heq)]
    rw [AList.lookup_insert_ne (Ne.symm heq)] at hn
    exact hw m n hn

theorem erase_wellFormed (hw : WellFormed fs) (hl : fs.lookup l ≠ some .dir) :
    WellFormed (fs.erase l) := by
  intro m n hn
  have hne : m ++ [n] ≠ l := by
    intro heq
    rw [heq, AList.lookup_erase] at hn
    exact hn rfl
  rw [AList.lookup_erase_ne hne] at hn
  have hdir := hw m n hn
  have hm : m ≠ l := by
    rintro rfl
    exact hl hdir
  rw [AList.lookup_erase_ne hm]
  exact hdir

def Accepted (host : Host) (path : String) : Prop := ∀ c ∈ path.toList, allowed host c

instance (host : Host) (path : String) : Decidable (Accepted host path) :=
  List.decidableBAll _ _

def place (host : Host) (io : FsIo) (path : String) : Location :=
  location host.cwd (join io.root path.toList)

def rootPlace (host : Host) (io : FsIo) : Location := location host.cwd io.root

variable {key : String} {data : Bytes}

theorem resolve_ok (h : Accepted host key) :
    resolve host io key = pure (join io.root key.toList) := by
  have hfind : key.toList.find? (fun c => !allowed host c) = none := by
    apply List.find?_eq_none.mpr
    intro c hc
    rw [h c hc]
    exact Bool.noConfusion
  rw [resolve, hfind]

def readReply (key : String) : Except OsError Bytes → Except FsError (Option Bytes)
  | .ok data => .ok (some data)
  | .error .notFound => .ok none
  | .error e => .error (.read key e)

variable (io fs) in
theorem read_eq (h : Accepted host key) : answer (read host io key) fs =
    (readReply key (readFile host (join io.root key.toList) fs), fs) := by
  rw [read, resolve_ok h, pure_bind, answer_bind (rfl : answer get fs = (.ok fs, fs))]
  cases readFile host (join io.root key.toList) fs with
  | ok data => rfl
  | error e => cases e <;> rfl

/-- Where a write makes the directories that are missing. -/
def prepared (host : Host) (path : List Char) : List Location :=
  match parentOf path with
  | some ns => trail (startOf host.cwd path) ns
  | none => []

/-- What a write that returns has done: its directories are made, and then its file. -/
def Written (host : Host) (io : FsIo) (key : String) (data : Bytes) (fs fs' : FileSystem) : Prop :=
  ∃ fs₁, Made (prepared host (join io.root key.toList)) fs fs₁ ∧
    ¬ Unwritable host (join io.root key.toList) fs₁ ∧
    fs' = fs₁.insert (place host io key) (.file data)

/-- What a write that fails leaves: its directories up to the first file, or all of them. -/
def Stopped (host : Host) (io : FsIo) (key : String) (fs fs' : FileSystem) : Prop :=
  (∃ pre l post, prepared host (join io.root key.toList) = pre ++ l :: post ∧
    Entry.isFile (fs.lookup l) ∧ Made pre fs fs') ∨
  (Made (prepared host (join io.root key.toList)) fs fs' ∧
    Unwritable host (join io.root key.toList) fs')

variable (data) in
theorem write_spec (h : Accepted host key)
    (hstart : fs.lookup (startOf host.cwd (join io.root key.toList)) = some .dir) :
    Ensures (write host io key data) fs (fun _ fs' => Written host io key data fs fs')
      fun _ fs' => Stopped host io key fs fs' := by
  rw [write, resolve_ok h, pure_bind]
  have hfinish {fs₁ : FileSystem} (hmade : Made (prepared host (join io.root key.toList)) fs fs₁) :
      Ensures (mapErr (.write key) (writeFile host (join io.root key.toList) data)) fs₁
        (fun _ fs' => Written host io key data fs fs') fun _ fs' => Stopped host io key fs fs' := by
    apply ensures_focus.mpr
    apply (writeFile_spec host (join io.root key.toList) fs₁ data).mono
    · exact fun _ fs' hdone => ⟨fs₁, hmade, hdone⟩
    · intro _ fs' he
      obtain ⟨rfl, hunwritable⟩ := he
      exact .inr ⟨hmade, hunwritable⟩
  cases hparent : parentOf (join io.root key.toList) with
  | none =>
    have hprepared : prepared host (join io.root key.toList) = [] := by rw [prepared, hparent]
    exact hfinish (hprepared ▸ made_of_dirs fun l hl => nomatch hl)
  | some ns =>
    have hprepared : prepared host (join io.root key.toList) =
        trail (startOf host.cwd (join io.root key.toList)) ns := by rw [prepared, hparent]
    have hmkdir := createDirAll_spec hstart ns.reverse
    rw [List.reverse_reverse, ← hprepared] at hmkdir
    exact (ensures_focus.mpr hmkdir).bind (fun _ fs₁ hmade => hfinish hmade) fun _ _ he => .inl he

variable (io fs) in
theorem delete_spec (h : Accepted host key) :
    Ensures (delete host io key) fs
      (fun _ fs' => (fs' = fs.erase (place host io key) ∧
          ∃ data, entryAt host (join io.root key.toList) fs = .ok (.file data)) ∨
        (fs' = fs ∧ ∃ e, entryAt host (join io.root key.toList) fs = .error e))
      fun _ fs' => fs' = fs ∧ entryAt host (join io.root key.toList) fs = .ok .dir := by
  rw [delete, resolve_ok h, pure_bind, ensures_bind, ensures_get]
  cases hentry : entryAt host (join io.root key.toList) fs with
  | error e => exact ensures_pure.mpr (.inr ⟨rfl, e, rfl⟩)
  | ok entry =>
    change Ensures (mapErr (.delete key) (removeFile host (join io.root key.toList))) fs _ _
    rw [mapErr, ensures_focus]
    cases entry with
    | file data =>
      have hremove : removeFile host (join io.root key.toList) fs =
          .ok () (fs.erase (place host io key)) := by
        rw [removeFile, hentry]
        rfl
      exact (ensures_of_ok hremove).mpr (.inl ⟨rfl, data, rfl⟩)
    | dir =>
      have hremove : removeFile host (join io.root key.toList) fs = .error .isADirectory fs := by
        rw [removeFile, hentry]
      exact (ensures_of_error hremove).mpr ⟨rfl, rfl⟩

end Chton.FsStores
