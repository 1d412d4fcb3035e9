import Chton.Origins
import Mathlib.Data.List.FinRange

/-!
# The fixed-depth tree strategy

A depth-`N` tree of 11172-wide nodes over an origin. A node is an occupancy bitmap
followed by one eight-byte slot for each coordinate; a slot of an inner node holds
the offset of a child node, a slot of a leaf node the offset of a record, and zero
means absent. Nodes and records come from one bump area behind the root node, and
freed records are kept on a list threaded through their first eight bytes.

Every function below follows the binding layer of the source statement by
statement. Fields and offsets are natural numbers; where the source adds without
a check, the sum goes through `addU64`, which panics outside `u64`.
-/

namespace Chton.TreeStrategyProgram
open OutcomePrograms ByteRegions LittleEndianWords Origins

/-- `Coord::N_VALID`. -/
abbrev nValid : ℕ := 11172
/-- A coordinate is an index below `Coord::N_VALID`. -/
instance : NeZero nValid := ⟨by decide⟩

abbrev Coord := Fin nValid

/-- Sentinel for an absent slot. -/
abbrev absent : ℕ := 0
abbrev slotBytes : ℕ := 8
abbrev headerLen : ℕ := 64
abbrev rootOffset : ℕ := headerLen
/-- "CHTO". -/
abbrev magic : ℕ := 0x4348544F
/-- One occupancy bit for each coordinate, at the node start. -/
abbrev bitmapBytes : ℕ := (nValid + 7) / 8
abbrev nodeSpan : ℕ := bitmapBytes + slotBytes * nValid

/-- `MAX_STORE_DEPTH`: the source asserts `N ≤ MAX_STORE_DEPTH` when `new` is compiled. -/
abbrev maxStoreDepth : ℕ := 1024

/-- `N` coordinates, outermost first. -/
@[ext] structure CoordPath (N : ℕ) where
  coords : List Coord
  length_coords : coords.length = N
  deriving DecidableEq

/-- `[Coord::new(0); N]`. -/
def CoordPath.zero (N : ℕ) : CoordPath N := ⟨List.replicate N 0, List.length_replicate⟩

/-- `path[i] = c`. -/
def CoordPath.set {N : ℕ} (path : CoordPath N) (i : ℕ) (c : Coord) : CoordPath N :=
  ⟨path.coords.set i c, by rw [List.length_set, path.length_coords]⟩

inductive BindingError where
  | origin (error : OriginError)
  | corrupt (node slot : ℕ)
  | keyTooLong (pathLen : ℕ)
  deriving DecidableEq, Repr

/-- A resolved slot for a coordinate path. -/
structure Slot where
  leafNode : ℕ
  leafIndex : Coord
  leafSlotOffset : ℕ
  recordOffset : ℕ
  deriving DecidableEq

structure TreeStrategy (N : ℕ) where
  recordSlotSize : ℕ
  bump : ℕ
  freeHead : ℕ
  nodeSize : ℕ
  recordCount : ℕ
  deriving DecidableEq

/-- A strategy together with the origin its methods are called on. -/
structure Mount (N : ℕ) (σ : Type) where
  strategy : TreeStrategy N
  origin : σ

abbrev BindingProgram (N : ℕ) (σ α : Type) := EStateM (Stop BindingError) (Mount N σ) α

/-- The `?` operator on an origin call made by the strategy. -/
def onOrigin {N : ℕ} {σ α : Type} (x : EStateM (Stop OriginError) σ α) : BindingProgram N σ α :=
  focus Mount.origin (fun o m => { m with origin := o }) (Stop.map .origin) x

section
variable {N : ℕ} {σ : Type} [Origin σ]

/-- A fresh header state; the root span is reserved. -/
def TreeStrategy.new {ε : Type} (recordSlotSize : ℕ) : Except (Stop ε) (TreeStrategy N) :=
  if recordSlotSize < slotBytes then .error (.panic .assertion) else
  .ok {
    recordSlotSize := recordSlotSize
    bump := rootOffset + nodeSpan
    freeHead := absent
    nodeSize := nodeSpan
    recordCount := 0 }

def originLen : BindingProgram N σ ℕ := do
  let m ← get
  pure (Origin.len m.origin)

/-- Header bytes `[lo, hi)` as a little-endian number. -/
def headerField (header : Bytes) (lo hi : ℕ) : ℕ := decode ((header.drop lo).take (hi - lo))

def corruptHeader : Stop BindingError := .err (.corrupt 0 0)

/-- `TreeStrategy::load`: adopt the header when the origin holds one. -/
def load : BindingProgram N σ Unit := do
  let len ← originLen
  if len < headerLen then pure () else
  let data ← onOrigin (Origin.read 0 headerLen)
  let header := data ++ List.replicate (headerLen - data.length) 0
  if headerField header 0 4 ≠ magic then pure () else
  let m ← get
  let depth := headerField header 4 6
  let nodeSize := headerField header 24 32
  let recordSlotSize := headerField header 32 40
  if depth ≠ N ∨ nodeSize ≠ m.strategy.nodeSize then throw corruptHeader else
  if recordSlotSize < slotBytes then throw corruptHeader else
  let loaded : TreeStrategy N := { m.strategy with
    recordSlotSize := recordSlotSize
    bump := headerField header 8 16
    freeHead := headerField header 16 24
    recordCount := headerField header 40 48 }
  set ({ m with strategy := loaded } : Mount N σ)
  if loaded.bump < rootOffset + loaded.nodeSize then throw corruptHeader else
  if loaded.freeHead ≠ absent ∧ loaded.freeHead ≥ len then throw corruptHeader else
  pure ()

def loadOrNew (origin : σ) (defaultRecordSlotSize : ℕ) :
    Except (Stop BindingError) (Mount N σ) := do
  let strategy ← TreeStrategy.new defaultRecordSlotSize
  match load (⟨strategy, origin⟩ : Mount N σ) with
  | .ok _ m => .ok m
  | .error e _ => .error e

def setRecordCount (count : ℕ) : BindingProgram N σ Unit :=
  modify fun m => { m with strategy := { m.strategy with recordCount := count } }

/-- The 64 header bytes: magic, depth, bump, free head, node size, slot size, count. -/
def headerBytes (s : TreeStrategy N) : Bytes :=
  encode 4 magic ++ encode 2 (N % 2 ^ 16) ++ [0, 0] ++ encode 8 s.bump ++ encode 8 s.freeHead ++
    encode 8 s.nodeSize ++ encode 8 s.recordSlotSize ++ encode 8 s.recordCount ++
    List.replicate 16 0

def writeHeader : BindingProgram N σ Unit := do
  let m ← get
  onOrigin (Origin.write 0 (headerBytes m.strategy))

/-- `bump.checked_add(size)`, with the error the source builds. -/
def checkedBump (size : ℕ) : BindingProgram N σ ℕ := do
  let m ← get
  let start := m.strategy.bump
  if start + size < 2 ^ 64 then do
    set ({ m with strategy := { m.strategy with bump := start + size } } : Mount N σ)
    pure start
  else throw (.err (.origin (.outOfBounds start (2 ^ 64 - 1))))

def allocNode : BindingProgram N σ ℕ := do
  let m ← get
  let node ← checkedBump m.strategy.nodeSize
  onOrigin (Origin.write node (List.replicate m.strategy.nodeSize 0))
  pure node

/-- A slot at or beyond the origin length is absent; a partial read is corrupt. -/
def readSlot (pos : ℕ) : BindingProgram N σ ℕ := do
  let len ← originLen
  if pos ≥ len then pure absent else
  let buf ← onOrigin (Origin.read pos slotBytes)
  if buf.length < slotBytes then throw (.err (.corrupt pos 0)) else
  pure (decode buf)

def checkChildInBounds (child : ℕ) : BindingProgram N σ Unit := do
  if child + nodeSpan < 2 ^ 64 then
    let len ← originLen
    if child + nodeSpan > len then throw (.err (.corrupt child 0)) else
    pure ()
  else throw (.err (.corrupt child 0))

def slotPos (node : ℕ) (index : Coord) : BindingProgram N σ ℕ := do
  let base ← addU64 node bitmapBytes
  addU64 base (index.val * slotBytes)

def bitmapBytePos (node : ℕ) (index : Coord) : BindingProgram N σ ℕ :=
  addU64 node (index.val / 8)

/-- `1u8 << (index % 8)`. -/
def bitOf (index : Coord) : UInt8 := 1 <<< UInt8.ofNat (index.val % 8)

def readBitmap (node : ℕ) : BindingProgram N σ Bytes := do
  let len ← originLen
  if node ≥ len then pure (List.replicate bitmapBytes 0) else
  let bitmap ← onOrigin (Origin.read node bitmapBytes)
  if bitmap.length < bitmapBytes then throw (.err (.corrupt node 0)) else
  pure bitmap

def writeU64 (pos value : ℕ) : BindingProgram N σ Unit :=
  onOrigin (Origin.write pos (encode 8 value))

/-- The second half of `write_slot`: keep the occupancy bit in step with the slot. -/
def writeBitmapBit (node : ℕ) (index : Coord) (value : ℕ) : BindingProgram N σ Unit := do
  let bytePos ← bitmapBytePos node index
  let buf ← onOrigin (Origin.read bytePos 1)
  match buf with
  | [] => throw (.err (.corrupt node 0))
  | byte :: _ =>
    let byte := if value = absent then byte &&& ~~~(bitOf index) else byte ||| bitOf index
    onOrigin (Origin.write bytePos [byte])

def writeSlot (node : ℕ) (index : Coord) (value : ℕ) : BindingProgram N σ Unit := do
  let pos ← slotPos node index
  writeU64 pos value
  writeBitmapBit node index value

/-- The descent of `locate` from `node` along the remaining coordinates. -/
def locateFrom (pathLen node : ℕ) : List Coord → BindingProgram N σ Slot
  | [] => throw (.err (.keyTooLong pathLen))
  | coord :: rest => do
    let pos ← slotPos node coord
    let value ← readSlot pos
    if rest = [] then pure ⟨node, coord, pos, value⟩ else
    if value = absent then pure ⟨node, coord, pos, absent⟩ else do
    checkChildInBounds value
    locateFrom pathLen value rest

def locate (key : CoordPath N) : BindingProgram N σ Slot :=
  locateFrom N rootOffset key.coords

/-- The descent of `locate_or_create`: a missing child is allocated and linked. -/
def locateOrCreateFrom (pathLen node : ℕ) : List Coord → BindingProgram N σ Slot
  | [] => throw (.err (.keyTooLong pathLen))
  | coord :: rest => do
    let pos ← slotPos node coord
    let value ← readSlot pos
    if rest = [] then pure ⟨node, coord, pos, value⟩ else
    if value = absent then do
      let child ← allocNode
      writeSlot node coord child
      locateOrCreateFrom pathLen child rest
    else do
      checkChildInBounds value
      locateOrCreateFrom pathLen value rest

def locateOrCreate (key : CoordPath N) : BindingProgram N σ Slot :=
  locateOrCreateFrom N rootOffset key.coords

def writeLeaf (slot : Slot) (recordOffset : ℕ) : BindingProgram N σ Unit :=
  writeSlot slot.leafNode slot.leafIndex recordOffset

def allocRecord : BindingProgram N σ ℕ := do
  let m ← get
  if m.strategy.freeHead ≠ absent then
    let len ← originLen
    if m.strategy.freeHead ≥ len then throw (.err (.corrupt m.strategy.freeHead 0)) else
    let next ← readSlot m.strategy.freeHead
    modify fun m => { m with strategy := { m.strategy with freeHead := next } }
    pure m.strategy.freeHead
  else checkedBump m.strategy.recordSlotSize

def freeRecord (offset : ℕ) : BindingProgram N σ Unit := do
  let m ← get
  writeU64 offset m.strategy.freeHead
  modify fun m => { m with strategy := { m.strategy with freeHead := offset } }

/-- `SpaceStrategy::flush` of the tree strategy. -/
def flushStrategy : BindingProgram N σ Unit := writeHeader

def reset : BindingProgram N σ Unit := do
  modify fun m => { m with strategy := { m.strategy with
    bump := rootOffset + m.strategy.nodeSize
    freeHead := absent
    recordCount := 0 } }
  let m ← get
  onOrigin (Origin.write rootOffset (List.replicate m.strategy.nodeSize 0))
  writeHeader

/-- `Vec::push` on a result vector that has no bound. -/
def pushEntry (out : List (CoordPath N × ℕ)) (entry : CoordPath N × ℕ) :
    BindingProgram N σ (List (CoordPath N × ℕ)) :=
  pure (out ++ [entry])

/-- `iter_node`: `levels` bounds the recursion and equals `N - depth`. The callee
overwrites every later coordinate before it records a path, so the array is passed down. -/
def iterNode (push : List (CoordPath N × ℕ) → CoordPath N × ℕ →
      BindingProgram N σ (List (CoordPath N × ℕ))) :
    (levels node depth : ℕ) → CoordPath N → List (CoordPath N × ℕ) →
      BindingProgram N σ (List (CoordPath N × ℕ))
  | 0, _, _, _, out => pure out
  | levels + 1, node, depth, path, out => do
    let bitmap ← readBitmap node
    (List.finRange nValid).foldlM (fun out index => do
      if peek bitmap (index.val / 8) &&& bitOf index = 0 then pure out else
      let pos ← slotPos node index
      let value ← readSlot pos
      if value = absent then pure out else
      let path := path.set depth index
      if depth + 1 = N then push out (path, value) else do
      checkChildInBounds value
      iterNode push levels value (depth + 1) path out) out

def iterWith (push : List (CoordPath N × ℕ) → CoordPath N × ℕ →
    BindingProgram N σ (List (CoordPath N × ℕ))) : BindingProgram N σ (List (CoordPath N × ℕ)) :=
  iterNode push N rootOffset 0 (CoordPath.zero N) []

/-- `TreeStrategy::iter`. -/
def iter : BindingProgram N σ (List (CoordPath N × ℕ)) := iterWith pushEntry

/-- `count_node`, with `levels` as in `iterNode`. -/
def countNode : (levels node depth : ℕ) → BindingProgram N σ ℕ
  | 0, _, _ => pure 0
  | levels + 1, node, depth => do
    let bitmap ← readBitmap node
    (List.finRange nValid).foldlM (fun count index => do
      if peek bitmap (index.val / 8) &&& bitOf index = 0 then pure count else
      let pos ← slotPos node index
      let value ← readSlot pos
      if value = absent then pure count else
      if depth + 1 = N then addU64 count 1 else do
      checkChildInBounds value
      let below ← countNode levels value (depth + 1)
      addU64 count below) 0

def countRecords : BindingProgram N σ ℕ := countNode N rootOffset 0

end

end Chton.TreeStrategyProgram
