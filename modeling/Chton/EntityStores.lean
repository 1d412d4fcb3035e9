import Chton.StringKeys
import Chton.MapServices
import Mathlib.Data.Finmap

/-!
# The three entity stores

One surface, three representations: a hash map from strings, a coordinate space indexed
by the path of the key, and serialized records in a materialized map. The surface is
infallible, so what the layers below report as an error is a panic here.

The coordinate space, the character table behind the keys and the value codec are not
part of this repository; they are parameters.
-/

namespace Chton.EntityStores
open OutcomePrograms CallRuns ByteRegions Origins TreeStrategyProgram CoordMapProgram
open StringKeys StoreRuns

inductive Operation where
  | get | insert | remove | iter | clear | replace
  deriving DecidableEq, Repr

inductive EntityPanic where
  | key (error : KeyError)
  | failed (operation : Operation) (error : MapError)
  | encode
  | decode
  | panic (cause : Panic)

abbrev EntityProgram (σ α : Type) := EStateM EntityPanic σ α

/-- The `EntityStore` trait; `values` has no order that a caller may rely on. -/
structure EntityStore (V σ : Type) where
  get : String → EntityProgram σ (Option V)
  insert : String → V → EntityProgram σ (Option V)
  remove : String → EntityProgram σ (Option V)
  containsKey : String → EntityProgram σ Bool
  len : EntityProgram σ ℕ
  values : EntityProgram σ (Multiset V)
  clear : EntityProgram σ Unit
  replaceFrom : List (String × V) → EntityProgram σ Unit

/-- `HashMap<String, V>`. -/
abbrev HashMap (V : Type) := Finmap fun _ : String => V

namespace MemoryEntityStore
variable {V : Type}

def getEntry (key : String) : EntityProgram (HashMap V) (Option V) := do
  let map ← get
  pure (map.lookup key)

def insertEntry (key : String) (value : V) : EntityProgram (HashMap V) (Option V) := do
  let map ← get
  set (map.insert key value)
  pure (map.lookup key)

def removeEntry (key : String) : EntityProgram (HashMap V) (Option V) := do
  let map ← get
  set (map.erase key)
  pure (map.lookup key)

def containsEntry (key : String) : EntityProgram (HashMap V) Bool := do
  let map ← get
  pure (map.lookup key).isSome

def entryCount : EntityProgram (HashMap V) ℕ := do
  let map ← get
  pure map.entries.card

def allValues : EntityProgram (HashMap V) (Multiset V) := do
  let map ← get
  pure (map.entries.map Sigma.snd)

def clearEntries : EntityProgram (HashMap V) Unit := set (∅ : HashMap V)

/-- `map.clear(); map.extend(entries)`. -/
def replaceEntries (entries : List (String × V)) : EntityProgram (HashMap V) Unit := do
  set (∅ : HashMap V)
  modify fun map => entries.foldl (fun map e => map.insert e.1 e.2) map

end MemoryEntityStore

def memoryEntityStore (V : Type) : EntityStore V (HashMap V) where
  get := MemoryEntityStore.getEntry
  insert := MemoryEntityStore.insertEntry
  remove := MemoryEntityStore.removeEntry
  containsKey := MemoryEntityStore.containsEntry
  len := MemoryEntityStore.entryCount
  values := MemoryEntityStore.allValues
  clear := MemoryEntityStore.clearEntries
  replaceFrom := MemoryEntityStore.replaceEntries

section
variable {σ : Type} (fromChar : Char → Option Coord) (N : ℕ)

/-- `let Ok(path) = str_to_coordpath(key) else`: a key without a path is absent. -/
def probe (key : String) : EntityProgram σ (Option (CoordPath N)) :=
  match strToCoordpath fromChar N key with
  | .ok path => pure (some path)
  | .error (.err _) => pure none
  | .error (.panic cause) => throw (.panic cause)

def mapKeyOrPanic (key : String) : EntityProgram σ (CoordPath N) :=
  match strToCoordpath fromChar N key with
  | .ok path => pure path
  | .error (.err e) => throw (.key e)
  | .error (.panic cause) => throw (.panic cause)

end

/-- `CoordSpaceN<N, V>`. -/
class CoordSpace (S : Type) (N : outParam ℕ) (V : outParam Type) where
  new : S
  atPath : S → CoordPath N → Option V
  placePath : S → CoordPath N → V → Option V × S
  vacatePath : S → CoordPath N → Option V × S
  len : S → ℕ
  iterTree : S → List (CoordPath N × V)
  clear : S → S

namespace CoordEntityStore
variable {S V : Type} {N : ℕ} [CoordSpace S N V] (fromChar : Char → Option Coord)

def getEntry (key : String) : EntityProgram S (Option V) := do
  match ← probe fromChar N key with
  | none => pure none
  | some path =>
    let space ← get
    pure (CoordSpace.atPath space path)

def insertEntry (key : String) (value : V) : EntityProgram S (Option V) := do
  let path ← mapKeyOrPanic fromChar N key
  let space ← get
  let out := CoordSpace.placePath space path value
  set out.2
  pure out.1

def removeEntry (key : String) : EntityProgram S (Option V) := do
  match ← probe fromChar N key with
  | none => pure none
  | some path =>
    let space ← get
    let out := CoordSpace.vacatePath space path
    set out.2
    pure out.1

def containsEntry (key : String) : EntityProgram S Bool := do
  match ← probe fromChar N key with
  | none => pure false
  | some path =>
    let space ← get
    pure (CoordSpace.atPath space path).isSome

def entryCount : EntityProgram S ℕ := do
  let space ← get
  pure (CoordSpace.len space)

def allValues : EntityProgram S (List V) := do
  let space ← get
  pure ((CoordSpace.iterTree space).map Prod.snd)

def clearEntries : EntityProgram S Unit := modify CoordSpace.clear

def replaceEntries (entries : List (String × V)) : EntityProgram S Unit := do
  modify CoordSpace.clear
  entries.foldlM (fun _ e => do
    let path ← mapKeyOrPanic fromChar N e.1
    modify fun space => (CoordSpace.placePath space path e.2).2) ()

end CoordEntityStore

def coordEntityStore (S : Type) {V : Type} {N : ℕ} [CoordSpace S N V]
    (fromChar : Char → Option Coord) : EntityStore V S where
  get := CoordEntityStore.getEntry fromChar
  insert := CoordEntityStore.insertEntry fromChar
  remove := CoordEntityStore.removeEntry fromChar
  containsKey := CoordEntityStore.containsEntry fromChar
  len := CoordEntityStore.entryCount
  values := do
    let vs ← CoordEntityStore.allValues
    pure (vs : Multiset V)
  clear := CoordEntityStore.clearEntries
  replaceFrom := CoordEntityStore.replaceEntries fromChar

/-- The value codec; what it encodes to is a `Vec`. -/
structure Codec (V : Type) where
  toAllocvec : V → Option Value
  fromBytes : Bytes → Option V

section
variable {V σ : Type} (codec : Codec V)

def encodeValue (value : V) : EntityProgram σ Value :=
  match codec.toAllocvec value with
  | some bytes => pure bytes
  | none => throw .encode

def decodeValue (bytes : Bytes) : EntityProgram σ V :=
  match codec.fromBytes bytes with
  | some value => pure value
  | none => throw .decode

/-- `prev.map(decode_value)`. -/
def decodePrev : Option Bytes → EntityProgram σ (Option V)
  | none => pure none
  | some bytes => do
    let value ← decodeValue codec bytes
    pure (some value)

end

/-- `Err(e) => panic!("map entity store {operation} failed: {e}")`. -/
def EntityPanic.ofStop (operation : Operation) : Stop MapError → EntityPanic
  | .err e => .failed operation e
  | .panic cause => .panic cause

namespace MapEntityStore
variable {V σ α : Type} {N : ℕ}

def onMap (operation : Operation) (x : MapProgram 64 N σ α) :
    EntityProgram (CoordMapStore 64 N σ) α :=
  focus id (fun st _ => st) (EntityPanic.ofStop operation) x

variable [Origin σ] (fromChar : Char → Option Coord) (codec : Codec V)

def getEntry (key : String) : EntityProgram (CoordMapStore 64 N σ) (Option V) := do
  match ← probe fromChar N key with
  | none => pure none
  | some path =>
    let value ← onMap .get (getPath path)
    decodePrev codec value

def insertEntry (key : String) (value : V) : EntityProgram (CoordMapStore 64 N σ) (Option V) := do
  let path ← mapKeyOrPanic fromChar N key
  let bytes ← encodeValue codec value
  let prev ← onMap .insert (putPath path bytes.val)
  decodePrev codec prev

def removeEntry (key : String) : EntityProgram (CoordMapStore 64 N σ) (Option V) := do
  match ← probe fromChar N key with
  | none => pure none
  | some path =>
    let prev ← onMap .remove (removePath path)
    decodePrev codec prev

def containsEntry (key : String) : EntityProgram (CoordMapStore 64 N σ) Bool := do
  match ← probe fromChar N key with
  | none => pure false
  | some path =>
    let value ← onMap .get (getPath path)
    pure value.isSome

def entryCount : EntityProgram (CoordMapStore 64 N σ) ℕ := do
  let map ← get
  pure map.len

def allValues : EntityProgram (CoordMapStore 64 N σ) (List V) := do
  let es ← onMap .iter entries
  es.mapM fun e => decodeValue codec e.2

def clearEntries : EntityProgram (CoordMapStore 64 N σ) Unit := onMap .clear clearChecked

/-- All keys and values are encoded before the map is touched. -/
def replaceEntries (entries : List (String × V)) : EntityProgram (CoordMapStore 64 N σ) Unit := do
  let encoded ← entries.mapM fun e => do
    let path ← mapKeyOrPanic fromChar N e.1
    let bytes ← encodeValue codec e.2
    pure (path, bytes)
  onMap .replace clearChecked
  encoded.foldlM (fun _ e => do
    let _ ← onMap .replace (putPath e.1 e.2.val)
    pure ()) ()

end MapEntityStore

def mapEntityStore (N : ℕ) (σ : Type) {V : Type} [Origin σ] (fromChar : Char → Option Coord)
    (codec : Codec V) : EntityStore V (CoordMapStore 64 N σ) where
  get := MapEntityStore.getEntry fromChar codec
  insert := MapEntityStore.insertEntry fromChar codec
  remove := MapEntityStore.removeEntry fromChar codec
  containsKey := MapEntityStore.containsEntry fromChar
  len := MapEntityStore.entryCount
  values := do
    let vs ← MapEntityStore.allValues codec
    pure (vs : Multiset V)
  clear := MapEntityStore.clearEntries
  replaceFrom := MapEntityStore.replaceEntries fromChar codec

inductive EntityCall (V : Type) where
  | get (key : String)
  | insert (key : String) (value : V)
  | remove (key : String)
  | containsKey (key : String)
  | len
  | values
  | clear
  | replaceFrom (entries : List (String × V))

inductive EntityAnswer (V : Type) where
  | value (v : Option V)
  | flag (b : Bool)
  | count (n : ℕ)
  | values (vs : Multiset V)
  | done

abbrev EntityReply (V : Type) := Except EntityPanic (EntityAnswer V)

def EntityCall.program {V σ : Type} (store : EntityStore V σ) :
    EntityCall V → EntityProgram σ (EntityAnswer V)
  | .get key => EntityAnswer.value <$> store.get key
  | .insert key value => EntityAnswer.value <$> store.insert key value
  | .remove key => EntityAnswer.value <$> store.remove key
  | .containsKey key => EntityAnswer.flag <$> store.containsKey key
  | .len => EntityAnswer.count <$> store.len
  | .values => EntityAnswer.values <$> store.values
  | .clear => (fun _ => .done) <$> store.clear
  | .replaceFrom entries => (fun _ => .done) <$> store.replaceFrom entries

def EntityCall.perform {V σ : Type} (store : EntityStore V σ) (c : EntityCall V) (s : σ) :
    EntityReply V × σ :=
  answer (c.program store) s

end Chton.EntityStores
