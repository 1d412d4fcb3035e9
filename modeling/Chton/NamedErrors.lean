import Chton.MapCalls
import Chton.MemoryOrigins
import Chton.ResultVectors

/-!
# The errors of a store over a memory origin

A memory origin refuses a write beyond the address space and nothing else, so the errors
of a store over it say that an offset is out of bounds, that a node or a record is corrupt,
or that a value is too large. A path has a coordinate for every level and is never too long.
-/

namespace Chton.NamedErrors
open OutcomePrograms ByteRegions LittleEndianWords Origins TreeStrategyProgram CoordMapProgram
open MapCalls MemoryOrigins ResultVectors

def Throws {ε : Type} (P : ε → Prop) : Stop ε → Prop
  | .err e => P e
  | .panic _ => True

def OutOfBounds : OriginError → Prop
  | .outOfBounds _ _ => True
  | _ => False

/-- The errors a caller of the strategy is told about. -/
def BindingNamed : BindingError → Prop
  | .origin e => OutOfBounds e
  | .corrupt _ _ => True
  | .keyTooLong _ => False

/-- The errors a caller of the store is told about. -/
def MapNamed : MapError → Prop
  | .origin e => OutOfBounds e
  | .binding e => BindingNamed e
  | .valueTooLarge _ _ => True
  | .corruptRecord _ _ => True

variable {w N : ℕ} {α : Type}

abbrev BindingFails (x : BindingProgram N (GrowingOrigin w) α) : Prop :=
  FailsWith (Throws BindingNamed) x

abbrev MapFails (x : MapProgram w N (GrowingOrigin w) α) : Prop := FailsWith (Throws MapNamed) x

theorem read_fails (offset n : ℕ) :
    FailsWith (Throws OutOfBounds) (Origin.read offset n : EStateM _ (GrowingOrigin w) Bytes) := by
  rw [VectorOrigin.read_eq, readVector]
  exact FailsWith.get.bind fun _ => (FailsWith.pure _).ite (FailsWith.pure _)

theorem write_fails (offset : ℕ) (data : Bytes) :
    FailsWith (Throws OutOfBounds) (Origin.write offset data : EStateM _ (GrowingOrigin w) Unit) := by
  apply FailsWith.get.bind
  intro o
  apply FailsWith.ite
  · split
    · exact FailsWith.set _
    · exact FailsWith.throw trivial
  · exact FailsWith.throw trivial

theorem onOrigin_fails {x : EStateM (Stop OriginError) (GrowingOrigin w) α}
    (hx : FailsWith (Throws OutOfBounds) x) :
    BindingFails (onOrigin x : BindingProgram N (GrowingOrigin w) α) := by
  apply hx.focus
  intro e he
  cases e with
  | err e => exact he
  | panic cause => trivial

theorem addU64_fails {ε σ : Type} {P : ε → Prop} (a b : ℕ) :
    FailsWith (Throws P) (addU64 a b : EStateM (Stop ε) σ ℕ) :=
  (FailsWith.pure _).ite (FailsWith.throw trivial)

theorem slotPos_fails (node : ℕ) (index : Coord) :
    BindingFails (slotPos node index : BindingProgram N (GrowingOrigin w) ℕ) :=
  (addU64_fails _ _).bind fun _ => addU64_fails _ _

theorem originLen_fails : BindingFails (originLen : BindingProgram N (GrowingOrigin w) ℕ) :=
  FailsWith.get.bind fun _ => FailsWith.pure _

theorem readSlot_fails (pos : ℕ) :
    BindingFails (readSlot pos : BindingProgram N (GrowingOrigin w) ℕ) :=
  originLen_fails.bind fun _ => (FailsWith.pure _).ite
    ((onOrigin_fails (read_fails _ _)).bind fun _ => (FailsWith.throw trivial).ite (FailsWith.pure _))

theorem readBitmap_fails (node : ℕ) :
    BindingFails (readBitmap node : BindingProgram N (GrowingOrigin w) Bytes) :=
  originLen_fails.bind fun _ => (FailsWith.pure _).ite
    ((onOrigin_fails (read_fails _ _)).bind fun _ => (FailsWith.throw trivial).ite (FailsWith.pure _))

theorem checkChildInBounds_fails (child : ℕ) :
    BindingFails (checkChildInBounds child : BindingProgram N (GrowingOrigin w) Unit) :=
  (originLen_fails.bind fun _ => (FailsWith.throw trivial).ite (FailsWith.pure _)).ite
    (FailsWith.throw trivial)

theorem load_fails : BindingFails (load : BindingProgram N (GrowingOrigin w) Unit) := by
  have hcorrupt : BindingFails (throw corruptHeader : BindingProgram N (GrowingOrigin w) Unit) :=
    FailsWith.throw trivial
  apply originLen_fails.bind
  intro len
  apply (FailsWith.pure _).ite
  apply (onOrigin_fails (read_fails _ _)).bind
  intro data
  apply (FailsWith.pure _).ite
  apply FailsWith.get.bind
  intro m
  apply hcorrupt.ite
  apply hcorrupt.ite
  apply (FailsWith.set _).bind
  exact fun _ => hcorrupt.ite (hcorrupt.ite (FailsWith.pure _))

theorem writeU64_fails (pos value : ℕ) :
    BindingFails (writeU64 pos value : BindingProgram N (GrowingOrigin w) Unit) :=
  onOrigin_fails (write_fails _ _)

theorem writeSlot_fails (node : ℕ) (index : Coord) (value : ℕ) :
    BindingFails (writeSlot node index value : BindingProgram N (GrowingOrigin w) Unit) := by
  apply (slotPos_fails _ _).bind
  intro pos
  apply (writeU64_fails _ _).bind
  intro _
  apply (addU64_fails _ _).bind
  intro bytePos
  apply (onOrigin_fails (read_fails _ _)).bind
  intro buf
  cases buf with
  | nil => exact FailsWith.throw trivial
  | cons byte rest => exact onOrigin_fails (write_fails _ _)

theorem checkedBump_fails (size : ℕ) :
    BindingFails (checkedBump size : BindingProgram N (GrowingOrigin w) ℕ) :=
  FailsWith.get.bind fun _ => ((FailsWith.set _).bind fun _ => FailsWith.pure _).ite
    (FailsWith.throw trivial)

theorem allocNode_fails : BindingFails (allocNode : BindingProgram N (GrowingOrigin w) ℕ) :=
  FailsWith.get.bind fun _ => (checkedBump_fails _).bind fun _ =>
    (onOrigin_fails (write_fails _ _)).bind fun _ => FailsWith.pure _

theorem allocRecord_fails : BindingFails (allocRecord : BindingProgram N (GrowingOrigin w) ℕ) := by
  apply FailsWith.get.bind
  intro m
  apply FailsWith.ite
  · apply originLen_fails.bind
    intro len
    apply (FailsWith.throw trivial).ite
    apply (readSlot_fails _).bind
    intro next
    exact (FailsWith.modify _).bind fun _ => FailsWith.pure _
  · exact checkedBump_fails _

theorem freeRecord_fails (offset : ℕ) :
    BindingFails (freeRecord offset : BindingProgram N (GrowingOrigin w) Unit) :=
  FailsWith.get.bind fun _ => (writeU64_fails _ _).bind fun _ => FailsWith.modify _

/-- A descent along at least one coordinate. -/
theorem locateFrom_fails (pathLen node : ℕ) {rest : List Coord} (hrest : rest ≠ []) :
    BindingFails (locateFrom pathLen node rest : BindingProgram N (GrowingOrigin w) Slot) := by
  induction rest generalizing node with
  | nil => exact absurd rfl hrest
  | cons c rest ih =>
    apply (slotPos_fails _ _).bind
    intro pos
    apply (readSlot_fails _).bind
    intro value
    by_cases hlast : rest = []
    · rw [if_pos hlast]
      exact FailsWith.pure _
    · rw [if_neg hlast]
      apply (FailsWith.pure _).ite
      exact (checkChildInBounds_fails _).bind fun _ => ih value hlast

theorem locateOrCreateFrom_fails (pathLen node : ℕ) {rest : List Coord} (hrest : rest ≠ []) :
    BindingFails (locateOrCreateFrom pathLen node rest : BindingProgram N (GrowingOrigin w) Slot) := by
  induction rest generalizing node with
  | nil => exact absurd rfl hrest
  | cons c rest ih =>
    apply (slotPos_fails _ _).bind
    intro pos
    apply (readSlot_fails _).bind
    intro value
    by_cases hlast : rest = []
    · rw [if_pos hlast]
      exact FailsWith.pure _
    · rw [if_neg hlast]
      apply FailsWith.ite
      · apply allocNode_fails.bind
        intro child
        exact (writeSlot_fails _ _ _).bind fun _ => ih child hlast
      · exact (checkChildInBounds_fails _).bind fun _ => ih value hlast

theorem iterNode_fails (size levels node depth : ℕ) (path : CoordPath N)
    (out : List (CoordPath N × ℕ)) :
    BindingFails (iterNode (pushWithin w size) levels node depth path out :
      BindingProgram N (GrowingOrigin w) _) := by
  induction levels generalizing node depth path out with
  | zero => exact FailsWith.pure _
  | succ levels ih =>
    apply (readBitmap_fails _).bind
    intro bitmap
    apply FailsWith.foldlM
    intro out index
    apply (FailsWith.pure _).ite
    apply (slotPos_fails _ _).bind
    intro pos
    apply (readSlot_fails _).bind
    intro value
    apply (FailsWith.pure _).ite
    apply ((FailsWith.pure _).ite (FailsWith.throw trivial)).ite
    exact (checkChildInBounds_fails _).bind fun _ => ih value _ _ out

theorem countNode_fails (levels node depth : ℕ) :
    BindingFails (countNode levels node depth : BindingProgram N (GrowingOrigin w) ℕ) := by
  induction levels generalizing node depth with
  | zero => exact FailsWith.pure _
  | succ levels ih =>
    apply (readBitmap_fails _).bind
    intro bitmap
    apply FailsWith.foldlM
    intro count index
    apply (FailsWith.pure _).ite
    apply (slotPos_fails _ _).bind
    intro pos
    apply (readSlot_fails _).bind
    intro value
    apply (FailsWith.pure _).ite
    apply (addU64_fails _ _).ite
    apply (checkChildInBounds_fails _).bind
    intro _
    exact (ih value _).bind fun _ => addU64_fails _ _

theorem onStrategy_fails {x : BindingProgram N (GrowingOrigin w) α} (hx : BindingFails x) :
    MapFails (onStrategy x : MapProgram w N (GrowingOrigin w) α) := by
  apply hx.focus
  intro e he
  cases e with
  | err e => exact he
  | panic cause => trivial

theorem onMapOrigin_fails {x : EStateM (Stop OriginError) (GrowingOrigin w) α}
    (hx : FailsWith (Throws OutOfBounds) x) :
    MapFails (onMapOrigin x : MapProgram w N (GrowingOrigin w) α) := by
  apply hx.focus
  intro e he
  cases e with
  | err e => exact he
  | panic cause => trivial

theorem maxValueLen_fails : MapFails (maxValueLen : MapProgram w N (GrowingOrigin w) ℕ) :=
  FailsWith.get.bind fun _ => (FailsWith.throw trivial).ite (FailsWith.pure _)

theorem readRecord_fails (offset : ℕ) :
    MapFails (readRecord offset : MapProgram w N (GrowingOrigin w) Bytes) := by
  apply (onMapOrigin_fails (read_fails _ _)).bind
  intro header
  apply (FailsWith.throw trivial).ite
  apply maxValueLen_fails.bind
  intro maxLen
  apply (FailsWith.throw trivial).ite
  apply ((FailsWith.pure _).ite (FailsWith.throw trivial)).bind
  intro _
  apply (addU64_fails _ _).bind
  intro payload
  apply (onMapOrigin_fails (read_fails _ _)).bind
  exact fun _ => (FailsWith.throw trivial).ite (FailsWith.pure _)

theorem entries_fails (z : ElementSizes) :
    MapFails (entriesWithin z : MapProgram w N (GrowingOrigin w) (List (CoordKey N × Bytes))) := by
  apply (onStrategy_fails (iterNode_fails _ _ _ _ _ _)).bind
  intro found
  apply ((FailsWith.pure _).ite (FailsWith.throw trivial)).bind
  intro _
  apply FailsWith.foldlM
  exact fun _ _ => (readRecord_fails _).bind fun _ => FailsWith.pure _

theorem getPath_fails (hN : 0 < N) (p : CoordPath N) :
    MapFails (getPath p : MapProgram w N (GrowingOrigin w) (Option Bytes)) := by
  apply (onStrategy_fails (locateFrom_fails _ _ (coords_ne_nil hN p))).bind
  intro slot
  apply (FailsWith.pure _).ite
  exact (readRecord_fails _).bind fun _ => FailsWith.pure _

theorem writeRecord_fails (record : ℕ) (value : Bytes) :
    MapFails (writeRecord record value : MapProgram w N (GrowingOrigin w) Unit) := by
  apply (onMapOrigin_fails (write_fails _ _)).bind
  intro _
  apply (FailsWith.pure _).ite
  exact (addU64_fails _ _).bind fun _ => onMapOrigin_fails (write_fails _ _)

theorem bumpLen_fails : MapFails (bumpLen : MapProgram w N (GrowingOrigin w) Unit) :=
  FailsWith.get.bind fun _ => (FailsWith.set _).ite (FailsWith.throw trivial)

theorem putPath_fails (hN : 0 < N) (p : CoordPath N) (value : Bytes) :
    MapFails (putPath p value : MapProgram w N (GrowingOrigin w) (Option Bytes)) := by
  apply maxValueLen_fails.bind
  intro maxLen
  apply (FailsWith.throw trivial).ite
  apply (onStrategy_fails (locateOrCreateFrom_fails _ _ (coords_ne_nil hN p))).bind
  intro slot
  apply FailsWith.ite
  · apply (readRecord_fails _).bind
    intro prev
    apply (writeRecord_fails _ _).bind
    exact fun _ => (FailsWith.modify _).bind fun _ => FailsWith.pure _
  · apply (onStrategy_fails allocRecord_fails).bind
    intro record
    apply (onStrategy_fails (writeSlot_fails _ _ _)).bind
    intro _
    apply bumpLen_fails.bind
    intro _
    apply (writeRecord_fails _ _).bind
    exact fun _ => (FailsWith.modify _).bind fun _ => FailsWith.pure _

theorem removePath_fails (hN : 0 < N) (p : CoordPath N) :
    MapFails (removePath p : MapProgram w N (GrowingOrigin w) (Option Bytes)) := by
  apply (onStrategy_fails (locateFrom_fails _ _ (coords_ne_nil hN p))).bind
  intro slot
  apply (FailsWith.pure _).ite
  apply (readRecord_fails _).bind
  intro prev
  apply (onStrategy_fails (freeRecord_fails _)).bind
  intro _
  apply (onStrategy_fails (writeSlot_fails _ _ _)).bind
  exact fun _ => (FailsWith.modify _).bind fun _ => FailsWith.pure _

end Chton.NamedErrors
