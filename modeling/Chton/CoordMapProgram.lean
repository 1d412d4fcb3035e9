import Chton.TreeStrategyProgram

/-!
# The record map over the tree strategy

`CoordMapStore` keeps byte strings in fixed-size record slots, each holding an
eight-byte length and the payload, and finds the slot of a path through the tree.
The index `w` is the width of `usize` on the target: the store's lengths are
`usize`, the fields of the format are `u64`, and a cast keeps the low `w` bits.
-/

namespace Chton.CoordMapProgram
open OutcomePrograms ByteRegions LittleEndianWords Origins TreeStrategyProgram

/-- Byte size of the record length prefix. -/
abbrev lengthBytes : ℕ := 8

/-- The byte key of the tagma-map surface: one byte for each axis. -/
@[ext] structure CoordKey (N : ℕ) where
  bytes : Bytes
  length_bytes : bytes.length = N
  deriving DecidableEq

/-- Keep the low byte of every coordinate index. -/
def projectByteKey {N : ℕ} (path : CoordPath N) : CoordKey N :=
  ⟨path.coords.map fun c => UInt8.ofNat c.val, by rw [List.length_map, path.length_coords]⟩

inductive MapError where
  | origin (error : OriginError)
  | binding (error : BindingError)
  | valueTooLarge (valueLen maxLen : ℕ)
  | corruptRecord (offset : ℕ) (reason : String)
  deriving DecidableEq, Repr

/-- `len` counts the entries; `dirty` says that the header is not written yet. -/
structure CoordMapStore (w N : ℕ) (σ : Type) where
  mount : Mount N σ
  len : ℕ
  dirty : Bool

abbrev MapProgram (w N : ℕ) (σ α : Type) := EStateM (Stop MapError) (CoordMapStore w N σ) α

section
variable {w N : ℕ} {σ α : Type}

/-- The `?` operator on a strategy call. -/
def onStrategy (x : BindingProgram N σ α) : MapProgram w N σ α :=
  focus CoordMapStore.mount (fun m st => { st with mount := m }) (Stop.map .binding) x

/-- The `?` operator on an origin call made by the map itself. -/
def onMapOrigin (x : EStateM (Stop OriginError) σ α) : MapProgram w N σ α :=
  focus (fun st => st.mount.origin) (fun o st => { st with mount := { st.mount with origin := o } })
    (Stop.map .origin) x

/-- `as usize`. -/
def asUsize (w n : ℕ) : ℕ := n % 2 ^ w

variable [Origin σ]

/-- The origin must be empty; `load` opens an existing store. -/
def CoordMapStore.new (origin : σ) (recordSlotSize : ℕ) :
    Except (Stop MapError) (CoordMapStore w N σ) := do
  let strategy ← TreeStrategy.new recordSlotSize
  pure ⟨⟨strategy, origin⟩, 0, false⟩

def CoordMapStore.load (origin : σ) (defaultRecordSlotSize : ℕ) :
    Except (Stop MapError) (CoordMapStore w N σ) :=
  match loadOrNew origin defaultRecordSlotSize with
  | .ok mount => .ok ⟨mount, asUsize w mount.strategy.recordCount, false⟩
  | .error e => .error (e.map .binding)

def CoordMapStore.isBuffered (st : CoordMapStore w N σ) : Bool := st.dirty

def flush : MapProgram w N σ Unit := do
  let st ← get
  onStrategy (setRecordCount st.len)
  onStrategy flushStrategy
  onMapOrigin Origin.flush
  modify fun st => { st with dirty := false }

def CoordMapStore.recordSlotSize (st : CoordMapStore w N σ) : ℕ :=
  st.mount.strategy.recordSlotSize

/-- The largest value that fits one record slot; the subtraction is on `usize`. -/
def maxValueLen : MapProgram w N σ ℕ := do
  let st ← get
  if asUsize w st.recordSlotSize < lengthBytes then throw (.panic .overflow) else
  pure (asUsize w st.recordSlotSize - lengthBytes)

/-- `vec![0u8; len]`: a request above `isize::MAX` bytes panics. -/
def vecZeroed (len : ℕ) : MapProgram w N σ Unit :=
  if len < 2 ^ (w - 1) then pure () else throw (.panic .capacity)

def readRecord (offset : ℕ) : MapProgram w N σ Bytes := do
  let header ← onMapOrigin (Origin.read offset lengthBytes)
  if header.length < lengthBytes then
    throw (.err (.corruptRecord offset "short record header"))
  else
  let len := asUsize w (decode header)
  let maxLen ← maxValueLen
  if len > maxLen then
    throw (.err (.corruptRecord offset "length prefix exceeds record slot"))
  else do
  vecZeroed len
  let payload ← addU64 offset lengthBytes
  let value ← onMapOrigin (Origin.read payload len)
  if value.length < len then
    throw (.err (.corruptRecord offset "short record payload"))
  else pure value

/-- The loop of `CoordMapStore::iter` over the records that the tree reported. -/
def readEntries (found : List (CoordPath N × ℕ)) : MapProgram w N σ (List (CoordKey N × Bytes)) :=
  found.foldlM (fun out e => do
    let value ← readRecord e.2
    pure (out ++ [(projectByteKey e.1, value)])) []

/-- `CoordMapStore::iter`. -/
def entries : MapProgram w N σ (List (CoordKey N × Bytes)) := do
  let found ← onStrategy iter
  readEntries found

def getPath (path : CoordPath N) : MapProgram w N σ (Option Bytes) := do
  let slot ← onStrategy (locate path)
  if slot.recordOffset = 0 then pure none else
  let value ← readRecord slot.recordOffset
  pure (some value)

/-- `self.len += 1`. -/
def bumpLen : MapProgram w N σ Unit := do
  let st ← get
  if st.len + 1 < 2 ^ w then set ({ st with len := st.len + 1 } : CoordMapStore w N σ) else
  throw (.panic .overflow)

/-- The length prefix, then the payload when there is one. -/
def writeRecord (record : ℕ) (value : Bytes) : MapProgram w N σ Unit := do
  onMapOrigin (Origin.write record (encode 8 value.length))
  if value = [] then pure () else
  let payload ← addU64 record lengthBytes
  onMapOrigin (Origin.write payload value)

def putPath (path : CoordPath N) (value : Bytes) : MapProgram w N σ (Option Bytes) := do
  let maxLen ← maxValueLen
  if value.length > maxLen then throw (.err (.valueTooLarge value.length maxLen)) else
  let slot ← onStrategy (locateOrCreate path)
  if slot.recordOffset ≠ 0 then
    let prev ← readRecord slot.recordOffset
    writeRecord slot.recordOffset value
    modify fun st => { st with dirty := true }
    pure (some prev)
  else
    let record ← onStrategy allocRecord
    onStrategy (writeLeaf slot record)
    bumpLen
    writeRecord record value
    modify fun st => { st with dirty := true }
    pure none

def removePath (path : CoordPath N) : MapProgram w N σ (Option Bytes) := do
  let slot ← onStrategy (locate path)
  if slot.recordOffset = 0 then pure none else
  let prev ← readRecord slot.recordOffset
  onStrategy (freeRecord slot.recordOffset)
  onStrategy (writeLeaf slot 0)
  modify fun st => { st with len := st.len - 1, dirty := true }
  pure (some prev)

def clearChecked : MapProgram w N σ Unit := do
  onStrategy reset
  modify fun st => { st with len := 0, dirty := false }

end

end Chton.CoordMapProgram
