import Chton.FileNames
import Chton.StoreSpans

/-!
# The flat key-space of files

`CoordMapStoreIo` keeps each file as one record under the key of its path. A read finds
the record by the key, a listing reads the names out of the values; that both see the
same files rests on every value of the map naming the path it is stored under.

`byteCoord` stands for the table by which a key byte becomes a coordinate.
-/

namespace Chton.FileStores
open OutcomePrograms CallRuns ByteRegions Origins TextBytes TreeStrategyProgram CoordMapProgram
open LayoutContents AreaNeeds KeyedMaps StoreRuns MapServices StoreSpans FileNames

inductive IoError where
  | key (error : KeyError)
  | map (error : MapError)
  | value (error : ValueError)

abbrev IoProgram (N : ℕ) (σ α : Type) := EStateM (Stop IoError) (CoordMapStore 64 N σ) α

section
variable {N : ℕ} {σ α : Type}

/-- The `?` operator on a call of the store. -/
def onMap (x : MapProgram 64 N σ α) : IoProgram N σ α :=
  focus id (fun st _ => st) (Stop.map .map) x

/-- The `?` operator on a result. -/
def onResult {ε : Type} (f : ε → IoError) : Except ε α → IoProgram N σ α
  | .ok a => pure a
  | .error e => throw (.err (f e))

variable [Origin σ] (byteCoord : UInt8 → Coord)

def read (path : String) : IoProgram N σ (Option Bytes) := do
  let key ← onResult .key (keyOf N path)
  let result ← onMap (getPath (toCoordPath byteCoord key))
  match result with
  | some value => do
    let file ← onResult .value (decodeValue value)
    pure (some file.2)
  | none => pure none

/-- The vector of `encode_value` is sized before anything is written. -/
def write (path : String) (data : Bytes) : IoProgram N σ Unit := do
  let key ← onResult .key (keyOf N path)
  withCapacity 64 1 (4 + (asBytes path).length + data.length)
  let _ ← onMap (putPath (toCoordPath byteCoord key) (encodeValue path data))
  pure ()

/-- The name of a listed value; a value that does not decode is passed over. -/
def nameOf (pre : String) (value : Bytes) : Option String :=
  match decodeValue value with
  | .ok file => if startsWith file.1 pre then some file.1 else none
  | .error _ => none

def list (pre : String) : IoProgram N σ (List String) := do
  let es ← onMap entries
  pure (es.filterMap fun e => nameOf pre e.2)

def delete (path : String) : IoProgram N σ Unit := do
  let key ← onResult .key (keyOf N path)
  let _ ← onMap (removePath (toCoordPath byteCoord key))
  pure ()

end

inductive FileCall where
  | read (path : String)
  | write (path : String) (data : Value)
  | list (pre : String)
  | delete (path : String)

inductive FileAnswer where
  | content (c : Option Bytes)
  | done
  | names (ns : List String)

abbrev FileReply := Except (Stop IoError) FileAnswer

/-- What the store is for: contents under paths. -/
abbrev Files := String → Option Bytes

def FileCall.path : FileCall → Option String
  | .read path => some path
  | .write path _ => some path
  | .list _ => none
  | .delete path => some path

/-- A write or delete that returned is what counts. -/
def Files.after (files : Files) : FileCall × FileReply → Files
  | (.write path data, .ok _) => Function.update files path (some data.val)
  | (.delete path, .ok _) => Function.update files path none
  | _ => files

variable {N : ℕ} {σ : Type} (byteCoord : UInt8 → Coord)

def FileCall.program [Origin σ] : FileCall → IoProgram N σ FileAnswer
  | .read path => do
    let c ← FileStores.read byteCoord path
    pure (.content c)
  | .write path data => do
    FileStores.write byteCoord path data.val
    pure .done
  | .list pre => do
    let ns ← FileStores.list pre
    pure (.names ns)
  | .delete path => do
    FileStores.delete byteCoord path
    pure .done

def FileCall.perform [Origin σ] (c : FileCall) (st : CoordMapStore 64 N σ) :
    FileReply × CoordMapStore 64 N σ := answer (c.program byteCoord) st

def slotOf (N : ℕ) (path : String) : Option (CoordPath N) :=
  (keyOf N path).toOption.map (toCoordPath byteCoord)

variable {byteCoord} {f : PathMap N} {files : Files} {path : String} {p : CoordPath N}

variable (byteCoord) in
theorem slotOf_nameable (hN : N ≤ maxIoDepth) (h : Nameable N path) :
    ∃ key p, keyOf N path = .ok key ∧ toCoordPath byteCoord key = p ∧
      slotOf byteCoord N path = some p := by
  obtain ⟨key, hkey, -⟩ := keyOf_nameable hN h
  refine ⟨key, _, hkey, rfl, ?_⟩
  rw [slotOf, hkey]
  rfl

theorem keyOf_of_slotOf (h : slotOf byteCoord N path = some p) :
    ∃ key, keyOf N path = .ok key ∧ toCoordPath byteCoord key = p := by
  obtain ⟨key, hkey, hp⟩ := Option.map_eq_some_iff.mp h
  cases hof : keyOf N path with
  | error e =>
    rw [hof] at hkey
    exact nomatch hkey
  | ok key' =>
    rw [hof] at hkey
    cases hkey
    exact ⟨key, rfl, hp⟩

theorem nameable_of_slotOf (h : slotOf byteCoord N path = some p) : Nameable N path := by
  obtain ⟨key, hkey, -⟩ := keyOf_of_slotOf h
  exact nameable_of_keyOf hkey

theorem slots_apart (hinj : Function.Injective byteCoord) (hN : N ≤ maxIoDepth) :
    Apart (slotOf byteCoord N) := by
  intro a b p ha hb
  obtain ⟨k, hk, hkp⟩ := keyOf_of_slotOf ha
  obtain ⟨l, hl, hlp⟩ := keyOf_of_slotOf hb
  have hkl := eq_of_toCoordPath_eq hinj (hkp.trans hlp.symm)
  exact eq_of_keyOf_eq hN hk (hkl ▸ hl)

/-- The map `f` holds the encoded files and nothing else. -/
abbrev HoldsFiles (byteCoord : UInt8 → Coord) (f : PathMap N) (files : Files) : Prop :=
  Encodes (slotOf byteCoord N) encodeValue f files

theorem nameOf_encodeValue (h : Nameable N path) (hN : N ≤ maxIoDepth) (pre : String)
    (content : Bytes) :
    nameOf pre (encodeValue path content) = if startsWith path pre then some path else none := by
  rw [nameOf, decodeValue_encodeValue ((h.length_lt hN).trans (by decide))]

structure Names (files : Files) (pre : String) (names : List String) : Prop where
  nodup : names.Nodup
  mem : ∀ name, name ∈ names ↔ files name ≠ none ∧ startsWith name pre

theorem names_of_entries (h : HoldsFiles byteCoord f files) (hinj : Function.Injective byteCoord)
    (hN : N ≤ maxIoDepth) {ps : List (CoordPath N)} (hps : Lists f ps)
    {es : List (CoordKey N × Bytes)} (hes : ps.map f = es.map fun e => some e.2) (pre : String) :
    Names files pre (es.filterMap fun e => nameOf pre e.2) := by
  obtain ⟨ks, hks, hplaces⟩ := h.names (slots_apart hinj hN) hps
  have hvalues := hes.symm.trans (h.entries hplaces)
  have hnames : es.filterMap (fun e => nameOf pre e.2) = ks.filter fun k => startsWith k pre :=
    calc es.filterMap (fun e => nameOf pre e.2)
        = (es.map fun e => some e.2).filterMap (Option.bind · (nameOf pre)) := by
          rw [List.filterMap_map]
          rfl
      _ = ks.filterMap fun k => ((files k).map (encodeValue k)).bind (nameOf pre) := by
          rw [hvalues, List.filterMap_map]
          rfl
      _ = ks.filterMap fun k => if startsWith k pre then some k else none := by
          apply List.filterMap_congr
          intro k hk
          have hfile := (hks.mem k).mp hk
          obtain ⟨p, hp⟩ := h.placed k hfile
          obtain ⟨c, hc⟩ := Option.ne_none_iff_exists'.mp hfile
          rw [hc, Option.map_some, Option.bind_some]
          exact nameOf_encodeValue (nameable_of_slotOf hp) hN pre c
      _ = ks.filter fun k => startsWith k pre := by
          rw [← List.filterMap_eq_filter]
          rfl
  rw [hnames]
  constructor
  · exact hks.nodup.filter _
  · intro name
    rw [List.mem_filter, hks.mem]

theorem onMap_spec {α : Type} {x : MapProgram 64 N σ α} {Q : α → CoordMapStore 64 N σ → Prop}
    {E : Stop MapError → CoordMapStore 64 N σ → Prop} (h : Ensures x st Q E) :
    Ensures (onMap x) st Q fun e st' => ∃ e₀, e = e₀.map .map ∧ E e₀ st' := by
  rw [onMap, ensures_focus]
  exact h.mono (fun _ _ hq => hq) fun e _ he => ⟨e, rfl, he⟩

variable [ByteOrigin σ] {slot : ℕ} {st : CoordMapStore 64 N σ}

def Keeps (byteCoord : UInt8 → Coord) (slot : ℕ) (st : CoordMapStore 64 N σ) (files : Files) :
    Prop :=
  ∃ f : PathMap N, Backs slot st f ∧ HoldsFiles byteCoord f files

variable (byteCoord st) in
/-- A path without a key is refused before the store is looked at. -/
theorem program_not_nameable (h : ¬ Nameable N path) {c : FileCall} (hc : c.path = some path) :
    ∃ e, c.perform byteCoord st = (.error (.err e), st) := by
  obtain ⟨e, he⟩ := keyOf_not_nameable h
  refine ⟨.key e, answer_of_error ?_⟩
  cases c with
  | list pre => exact nomatch hc
  | read path' =>
    cases hc
    rw [FileCall.program, FileStores.read, he]
    rfl
  | write path' data =>
    cases hc
    rw [FileCall.program, FileStores.write, he]
    rfl
  | delete path' =>
    cases hc
    rw [FileCall.program, FileStores.delete, he]
    rfl

theorem read_spec (hfail : NeverFails σ) (hN : 0 < N) (hN' : N ≤ maxIoDepth)
    (h : Keeps byteCoord slot st files) (hpath : Nameable N path) :
    Ensures (FileStores.read byteCoord path) st
      (fun c st' => c = files path ∧ Keeps byteCoord slot st' files) fun _ _ => False := by
  obtain ⟨f, hback, henc⟩ := h
  obtain ⟨key, p, hkey, rfl, hp⟩ := slotOf_nameable byteCoord hN' hpath
  rw [FileStores.read, hkey, onResult, pure_bind]
  refine (onMap_spec (getPath_backs hfail hN hback _)).bind ?_ fun e st' he => he.elim fun _ he => he.2
  intro v st' hv
  obtain ⟨rfl, hback'⟩ := hv
  rw [henc.value path _ hp]
  cases hfile : files path with
  | none =>
    rw [Option.map_none]
    exact ensures_pure.mpr ⟨rfl, f, hback', henc⟩
  | some c =>
    rw [Option.map_some]
    simp only [decodeValue_encodeValue ((hpath.length_lt hN').trans (by decide)), onResult, pure_bind]
    exact ensures_pure.mpr ⟨rfl, f, hback', henc⟩

def Fits (slot : ℕ) (path : String) (data : Bytes) : Prop :=
  4 + (asBytes path).length + data.length ≤ slot - lengthBytes

/-- The errors of a write that fits, in the store that it leaves: the address space of the
process or of the store is exhausted. -/
def OutOfRoom (slot : ℕ) (path : String) (data : Bytes) (st : CoordMapStore 64 N σ)
    (e : Stop IoError) : Prop :=
  (e = .panic .capacity ∧ 2 ^ 63 ≤ 4 + (asBytes path).length + data.length) ∨
    ∃ e₀, e = e₀.map .map ∧ NoRoom slot st e₀

theorem write_spec (hfail : NeverFails σ) (hinj : Function.Injective byteCoord) (hN : 0 < N)
    (hN' : N ≤ maxIoDepth) (h : Keeps byteCoord slot st files) (hpath : Nameable N path)
    (data : Bytes) :
    Ensures (FileStores.write byteCoord path data) st
      (fun _ st' => Fits slot path data ∧
        Keeps byteCoord slot st' (Function.update files path (some data)))
      fun e st' => ¬ Fits slot path data ∧ st' = st ∨
        Fits slot path data ∧ OutOfRoom slot path data st' e ∧
          Keeps byteCoord slot st' files := by
  obtain ⟨f, hback, henc⟩ := h
  obtain ⟨key, p, hkey, rfl, hp⟩ := slotOf_nameable byteCoord hN' hpath
  have hlen := length_encodeValue path data
  rw [FileStores.write, hkey, onResult, pure_bind, withCapacity_bytes]
  by_cases hcap : 4 + (asBytes path).length + data.length < 2 ^ 63
  · rw [if_pos hcap, pure_bind]
    have hput := putPath_backs hfail hN hback (toCoordPath byteCoord key) (hlen.trans_lt hcap)
    rw [hlen] at hput
    refine (onMap_spec hput).bind ?_ ?_
    · intro prev st' hdone
      obtain ⟨hfits, -, hback'⟩ := hdone
      exact ensures_pure.mpr ⟨hfits, _, hback', henc.update (slots_apart hinj hN') hp (some data)⟩
    · intro e st' he
      obtain ⟨e₀, rfl, ⟨hbig, hst⟩ | ⟨hfits, hroom, hback'⟩⟩ := he
      · exact .inl ⟨Nat.not_le_of_gt hbig, hst⟩
      · exact .inr ⟨hfits, .inr ⟨e₀, rfl, hroom⟩, f, hback', henc⟩
  · rw [if_neg hcap, throw_bind, ensures_throw]
    by_cases hfits : Fits slot path data
    · exact .inr ⟨hfits, .inl ⟨rfl, Nat.le_of_not_lt hcap⟩, f, hback, henc⟩
    · exact .inl ⟨hfits, rfl⟩

theorem delete_spec (hfail : NeverFails σ) (hinj : Function.Injective byteCoord) (hN : 0 < N)
    (hN' : N ≤ maxIoDepth) (h : Keeps byteCoord slot st files) (hpath : Nameable N path) :
    Ensures (FileStores.delete byteCoord path) st
      (fun _ st' => Keeps byteCoord slot st' (Function.update files path none))
      fun _ _ => False := by
  obtain ⟨f, hback, henc⟩ := h
  obtain ⟨key, p, hkey, rfl, hp⟩ := slotOf_nameable byteCoord hN' hpath
  rw [FileStores.delete, hkey, onResult, pure_bind]
  refine (onMap_spec (removePath_backs hfail hN hback _)).bind ?_
    fun e st' he => he.elim fun _ he => he.2
  intro prev st' hdone
  exact ensures_pure.mpr ⟨_, hdone.2, henc.update (slots_apart hinj hN') hp none⟩

theorem list_spec (hfail : NeverFails σ) (hinj : Function.Injective byteCoord) (hN : 0 < N) (hN' : N ≤ maxIoDepth)
    (h : Keeps byteCoord slot st files) (pre : String) :
    Ensures (FileStores.list pre) st
      (fun names st' => Names files pre names ∧ Keeps byteCoord slot st' files)
      fun _ _ => False := by
  obtain ⟨f, hback, henc⟩ := h
  rw [FileStores.list]
  refine (onMap_spec (entries_backs hfail hN hback)).bind ?_ fun e st' he => he.elim fun _ he => he.2
  intro es st' hes
  obtain ⟨hback', ps, hps, hvalues⟩ := hes
  rw [ensures_pure]
  exact ⟨names_of_entries henc hinj hN' hps hvalues pre, f, hback', henc⟩

theorem read_answer (hfail : NeverFails σ) (hN : 0 < N) (hN' : N ≤ maxIoDepth)
    (h : Keeps byteCoord slot st files) (hpath : Nameable N path) :
    ∃ st', (FileCall.read path).perform byteCoord st = (.ok (.content (files path)), st') ∧
      Keeps byteCoord slot st' files := by
  have hspec : Ensures ((FileCall.read path).program byteCoord) st
      (fun a st' => a = .content (files path) ∧ Keeps byteCoord slot st' files)
      fun _ _ => False := by
    apply (read_spec hfail hN hN' h hpath).andThen
    intro c st' hc
    exact ensures_pure.mpr ⟨congrArg FileAnswer.content hc.1, hc.2⟩
  obtain ⟨a, st', hanswer, rfl, hkeeps⟩ := answer_ok hspec
  exact ⟨st', hanswer, hkeeps⟩

theorem delete_answer (hfail : NeverFails σ) (hinj : Function.Injective byteCoord) (hN : 0 < N)
    (hN' : N ≤ maxIoDepth) (h : Keeps byteCoord slot st files) (hpath : Nameable N path) :
    ∃ st', (FileCall.delete path).perform byteCoord st = (.ok .done, st') ∧
      Keeps byteCoord slot st' (Function.update files path none) := by
  have hspec : Ensures ((FileCall.delete path).program byteCoord) st
      (fun a st' => a = .done ∧ Keeps byteCoord slot st' (Function.update files path none))
      fun _ _ => False := by
    apply (delete_spec hfail hinj hN hN' h hpath).andThen
    intro _ st' hst'
    exact ensures_pure.mpr ⟨rfl, hst'⟩
  obtain ⟨a, st', hanswer, rfl, hkeeps⟩ := answer_ok hspec
  exact ⟨st', hanswer, hkeeps⟩

theorem list_answer (hfail : NeverFails σ) (hinj : Function.Injective byteCoord) (hN : 0 < N)
    (hN' : N ≤ maxIoDepth) (h : Keeps byteCoord slot st files) (pre : String) :
    ∃ names st', (FileCall.list pre).perform byteCoord st = (.ok (.names names), st') ∧
      Names files pre names ∧ Keeps byteCoord slot st' files := by
  have hspec : Ensures ((FileCall.list pre).program byteCoord) st
      (fun a st' => ∃ names, a = .names names ∧ Names files pre names ∧
        Keeps byteCoord slot st' files) fun _ _ => False := by
    apply (list_spec hfail hinj hN hN' h pre).andThen
    intro names st' hnames
    exact ensures_pure.mpr ⟨names, rfl, hnames⟩
  obtain ⟨a, st', hanswer, names, rfl, hnames⟩ := answer_ok hspec
  exact ⟨names, st', hanswer, hnames⟩

theorem write_answer (hfail : NeverFails σ) (hinj : Function.Injective byteCoord) (hN : 0 < N)
    (hN' : N ≤ maxIoDepth) (h : Keeps byteCoord slot st files) (hpath : Nameable N path)
    (data : Value) :
    (∃ st', (FileCall.write path data).perform byteCoord st = (.ok .done, st') ∧
        Fits slot path data.val ∧
        Keeps byteCoord slot st' (Function.update files path (some data.val))) ∨
      ∃ e st', (FileCall.write path data).perform byteCoord st = (.error e, st') ∧
        (¬ Fits slot path data.val ∧ st' = st ∨
          Fits slot path data.val ∧ OutOfRoom slot path data.val st' e ∧
            Keeps byteCoord slot st' files) := by
  have hspec : Ensures ((FileCall.write path data).program byteCoord) st
      (fun a st' => a = .done ∧ Fits slot path data.val ∧
        Keeps byteCoord slot st' (Function.update files path (some data.val)))
      fun e st' => ¬ Fits slot path data.val ∧ st' = st ∨
        Fits slot path data.val ∧ OutOfRoom slot path data.val st' e ∧
          Keeps byteCoord slot st' files := by
    apply (write_spec hfail hinj hN hN' h hpath data.val).andThen
    intro _ st' hst'
    exact ensures_pure.mpr ⟨rfl, hst'⟩
  rcases answer_cases hspec with ⟨a, st', hanswer, rfl, hkeeps⟩ | ⟨e, st', hanswer, he⟩
  · exact .inl ⟨st', hanswer, hkeeps⟩
  · exact .inr ⟨e, st', hanswer, he⟩

/-- One call of any kind leaves the store with the files that the call and its reply say. -/
theorem perform_keeps (hfail : NeverFails σ) (hinj : Function.Injective byteCoord) (hN : 0 < N)
    (hN' : N ≤ maxIoDepth) (h : Keeps byteCoord slot st files) (c : FileCall) :
    Keeps byteCoord slot (c.perform byteCoord st).2
      (files.after (c, (c.perform byteCoord st).1)) := by
  by_cases hname : ∀ path, c.path = some path → Nameable N path
  · cases c with
    | read path =>
      obtain ⟨st', hanswer, hkeeps⟩ := read_answer hfail hN hN' h (hname path rfl)
      rw [hanswer]
      exact hkeeps
    | write path data =>
      obtain ⟨st', hanswer, -, hkeeps⟩ | ⟨e, st', hanswer, ⟨-, rfl⟩ | ⟨-, -, hkeeps⟩⟩ :=
        write_answer hfail hinj hN hN' h (hname path rfl) data
      · rw [hanswer]
        exact hkeeps
      · rw [hanswer]
        exact h
      · rw [hanswer]
        exact hkeeps
    | list pre =>
      obtain ⟨names, st', hanswer, -, hkeeps⟩ := list_answer hfail hinj hN hN' h pre
      rw [hanswer]
      exact hkeeps
    | delete path =>
      obtain ⟨st', hanswer, hkeeps⟩ := delete_answer hfail hinj hN hN' h (hname path rfl)
      rw [hanswer]
      exact hkeeps
  · obtain ⟨path, hpath⟩ := not_forall.mp hname
    obtain ⟨hc, hpath⟩ := Classical.not_imp.mp hpath
    obtain ⟨e, he⟩ := program_not_nameable byteCoord st hpath hc
    rw [he]
    cases c <;> exact h

/-- What a run of calls on a store leaves behind, as later calls see it. -/
structure FileRun (byteCoord : UInt8 → Coord) (slot : ℕ) (st : CoordMapStore 64 N σ)
    (files : Files) : Prop where
  /-- A read returns the content last written and not deleted since. -/
  read : ∀ path, Nameable N path →
    ((FileCall.read path).perform byteCoord st).1 = .ok (.content (files path))
  /-- Only paths that have a key are stored. -/
  nameable : ∀ path, files path ≠ none → Nameable N path
  /-- A path without a key is refused without any change. -/
  unnameable : ∀ c path, FileCall.path c = some path → ¬ Nameable N path →
    ∃ e, c.perform byteCoord st = (.error (.err e), st)
  /-- A file that does not fit its slot is refused without any change. -/
  oversized : ∀ path (data : Value), ¬ Fits slot path data.val →
    ∃ e, (FileCall.write path data).perform byteCoord st = (.error e, st)
  /-- Any other write goes through, unless the address space is exhausted. -/
  write : ∀ path (data : Value), Nameable N path → Fits slot path data.val →
    ((FileCall.write path data).perform byteCoord st).1 = .ok .done ∨
      ∃ e, ((FileCall.write path data).perform byteCoord st).1 = .error e ∧
        OutOfRoom slot path data.val ((FileCall.write path data).perform byteCoord st).2 e
  delete : ∀ path, Nameable N path →
    ((FileCall.delete path).perform byteCoord st).1 = .ok .done
  /-- A listing has every stored path with the prefix once, and nothing else. -/
  list : ∀ pre, ∃ names, ((FileCall.list pre).perform byteCoord st).1 = .ok (.names names) ∧
    Names files pre names

theorem fileRun_of_keeps (hfail : NeverFails σ) (hinj : Function.Injective byteCoord) (hN : 0 < N)
    (hN' : N ≤ maxIoDepth) (h : Keeps byteCoord slot st files) :
    FileRun byteCoord slot st files := by
  constructor
  · intro path hpath
    obtain ⟨st', hanswer, -⟩ := read_answer hfail hN hN' h hpath
    rw [hanswer]
  · intro path hpath
    obtain ⟨f, -, henc⟩ := h
    obtain ⟨p, hp⟩ := henc.placed path hpath
    exact nameable_of_slotOf hp
  · intro c path hc hpath
    exact program_not_nameable byteCoord _ hpath hc
  · intro path data hbig
    by_cases hpath : Nameable N path
    · obtain ⟨st', -, hfits, -⟩ | ⟨e, st', hanswer, ⟨-, rfl⟩ | ⟨hfits, -⟩⟩ :=
        write_answer hfail hinj hN hN' h hpath data
      · exact absurd hfits hbig
      · exact ⟨e, hanswer⟩
      · exact absurd hfits hbig
    · obtain ⟨e, he⟩ := program_not_nameable byteCoord st hpath
        (c := .write path data) rfl
      exact ⟨_, he⟩
  · intro path data hpath hfits
    obtain ⟨st', hanswer, -⟩ | ⟨e, st', hanswer, ⟨hbig, -⟩ | ⟨-, hroom, -⟩⟩ :=
      write_answer hfail hinj hN hN' h hpath data
    · rw [hanswer]
      exact .inl rfl
    · exact absurd hfits hbig
    · rw [hanswer]
      exact .inr ⟨e, rfl, hroom⟩
  · intro path hpath
    obtain ⟨st', hanswer, -⟩ := delete_answer hfail hinj hN hN' h hpath
    rw [hanswer]
  · intro pre
    obtain ⟨names, st', hanswer, hnames, -⟩ := list_answer hfail hinj hN hN' h pre
    rw [hanswer]
    exact ⟨names, rfl, hnames⟩

def FileCall.place (byteCoord : UInt8 → Coord) (N : ℕ) : FileCall → Option (CoordPath N)
  | .write path _ => slotOf byteCoord N path
  | _ => none

def placesOf (byteCoord : UInt8 → Coord) (N : ℕ) (cs : List FileCall) : List (CoordPath N) :=
  cs.filterMap (FileCall.place byteCoord N)

/-- A write that fits goes through while there is room for its file and those at `ps`. -/
def HasRoom (byteCoord : UInt8 → Coord) (slot : ℕ) (ps : List (CoordPath N))
    (st : CoordMapStore 64 N σ) : Prop :=
  ∀ path (data : Value) p, slotOf byteCoord N path = some p → Fits slot path data.val →
    4 + (asBytes path).length + data.val.length < 2 ^ 63 → areaNeed slot (ps ++ [p]) < 2 ^ 64 →
    ((FileCall.write path data).perform byteCoord st).1 = .ok .done

section
variable {α : Type} {I : CoordMapStore 64 N σ → Prop} {ps : List (CoordPath N)}

omit [ByteOrigin σ] in
theorem preserves_onResult {ε : Type} (f : ε → IoError) (r : Except ε α) :
    Preserves I (onResult f r : IoProgram N σ α) := by
  cases r with
  | ok a => exact Preserves.pure a
  | error e => exact Preserves.throw _

theorem read_preserves (hfail : NeverFails σ) (hN : 0 < N) (path : String) :
    Preserves (Spans slot ps) (FileStores.read byteCoord path : IoProgram N σ _) := by
  refine (preserves_onResult _ _).bind fun key => Preserves.bind (.focus ?_ _) fun result => ?_
  · exact fun st h => spans_program hfail hN h (.map (.get _)) .value rfl
  · cases result with
    | none => exact Preserves.pure none
    | some value => exact (preserves_onResult _ _).bind fun file => Preserves.pure _

theorem delete_preserves (hfail : NeverFails σ) (hN : 0 < N) (path : String) :
    Preserves (Spans slot ps) (FileStores.delete byteCoord path : IoProgram N σ _) := by
  refine (preserves_onResult _ _).bind fun key => Preserves.bind (.focus ?_ _) fun _ => .pure _
  exact fun st h => spans_program hfail hN h (.map (.remove _)) .value rfl

theorem list_preserves (hfail : NeverFails σ) (hN : 0 < N) (pre : String) :
    Preserves (Spans slot ps) (FileStores.list pre : IoProgram N σ _) := by
  refine Preserves.bind (.focus ?_ _) fun es => .pure _
  exact fun st h => spans_program hfail hN h .iter .entries rfl

/-- A write takes room at the place of its file, or is refused before it comes to that. -/
theorem write_room (hfail : NeverFails σ) (hN : 0 < N) (h : Spans slot ps st) {p : CoordPath N}
    (hp : slotOf byteCoord N path = some p) (data : Bytes) :
    Ensures (FileStores.write byteCoord path data) st (fun _ st' => Spans slot (ps ++ [p]) st')
      fun _ st' => Spans slot (ps ++ [p]) st' ∧ (Fits slot path data →
        4 + (asBytes path).length + data.length < 2 ^ 63 → 2 ^ 64 ≤ areaNeed slot (ps ++ [p])) := by
  obtain ⟨key, hkey, rfl⟩ := keyOf_of_slotOf hp
  have hlen := length_encodeValue path data
  rw [FileStores.write, hkey, onResult, pure_bind, withCapacity_bytes]
  by_cases hcap : 4 + (asBytes path).length + data.length < 2 ^ 63
  · rw [if_pos hcap, pure_bind]
    have hput := putPath_room hfail hN h (toCoordPath byteCoord key) (hlen.trans_lt hcap)
    rw [hlen] at hput
    refine (onMap_spec hput).bind (fun _ st' hdone => ensures_pure.mpr hdone) ?_
    intro e st' he
    obtain ⟨_, -, hspans, hneed⟩ := he
    exact ⟨hspans, fun hfits _ => (hneed hfits).2⟩
  · rw [if_neg hcap, throw_bind, ensures_throw]
    exact ⟨h.mono fun q hq => List.mem_append_left _ hq, fun _ hlt => absurd hlt hcap⟩

theorem perform_spans (hfail : NeverFails σ) (hN : 0 < N) (h : Spans slot ps st) (c : FileCall) :
    Spans slot (ps ++ placesOf byteCoord N [c]) (c.perform byteCoord st).2 := by
  apply ensures_answer.mp
  cases c with
  | read path =>
    rw [placesOf, List.filterMap_cons_none rfl, List.filterMap_nil, List.append_nil]
    exact ((read_preserves hfail hN path).bind fun _ => Preserves.pure _) st h
  | delete path =>
    rw [placesOf, List.filterMap_cons_none rfl, List.filterMap_nil, List.append_nil]
    exact ((delete_preserves hfail hN path).bind fun _ => Preserves.pure _) st h
  | list pre =>
    rw [placesOf, List.filterMap_cons_none rfl, List.filterMap_nil, List.append_nil]
    exact ((list_preserves hfail hN pre).bind fun _ => Preserves.pure _) st h
  | write path data =>
    cases hkey : keyOf N path with
    | error e =>
      have hplace : (FileCall.write path data).place byteCoord N = none := by
        rw [FileCall.place, slotOf, hkey]
        rfl
      rw [placesOf, List.filterMap_cons_none hplace, List.filterMap_nil, List.append_nil,
        FileCall.program, FileStores.write, hkey]
      exact ensures_throw.mpr h
    | ok key =>
      have hplace : (FileCall.write path data).place byteCoord N =
          some (toCoordPath byteCoord key) := by
        rw [FileCall.place, slotOf, hkey]
        rfl
      rw [placesOf, List.filterMap_cons_some hplace, List.filterMap_nil]
      exact (write_room hfail hN h hplace data.val).bind
        (fun _ _ hdone => ensures_pure.mpr hdone) fun _ _ hrefused => hrefused.1

theorem run_spans (hfail : NeverFails σ) (hN : 0 < N)
    (h : Spans slot ([] : List (CoordPath N)) st) (cs : List FileCall) :
    Spans slot (placesOf byteCoord N cs) (run (FileCall.perform byteCoord) cs st).2 := by
  induction cs using List.reverseRecOn with
  | nil => exact h
  | append_singleton cs c ih =>
    rw [run_append, placesOf, List.filterMap_append]
    exact perform_spans hfail hN ih c

theorem hasRoom_of_spans (hfail : NeverFails σ) (hN : 0 < N) (h : Spans slot ps st) :
    HasRoom byteCoord slot ps st := by
  intro path data p hp hfits hcap hroom
  have hspec : Ensures ((FileCall.write path data).program byteCoord) st (fun a _ => a = .done)
      fun _ _ => False := by
    apply (write_room hfail hN h hp data.val).bind
    · exact fun _ _ _ => ensures_pure.mpr rfl
    · exact fun _ _ hrefused => absurd hroom (Nat.not_lt_of_ge (hrefused.2 hfits hcap))
  obtain ⟨a, st', hanswer, rfl⟩ := answer_ok hspec
  rw [FileCall.perform, hanswer]

end

end Chton.FileStores
