import Chton.CoordMapProgram
import Chton.GrowingVectors

/-!
# Memory origins

The origin over a growing vector, on a target whose `usize` has `w` bits. Offsets are `u64`
and are cast to `usize` before anything is compared. The vector grows with the writes, and a
request above `isize::MAX` bytes panics. An origin that keeps the capacity of its vector asks
for as much as a vector does that doubles; one that does not asks for no more than a write needs.
-/

namespace Chton.MemoryOrigins
open OutcomePrograms ByteRegions Origins CoordMapProgram GrowingVectors

variable {w : ℕ} {σ : Type}

/-- `MemoryOrigin::read` over the bytes of an origin. -/
def readVector (w : ℕ) (bytes : σ → Bytes) (offset n : ℕ) :
    EStateM (Stop OriginError) σ Bytes := do
  let o ← get
  let start := asUsize w offset
  if start ≥ (bytes o).length then pure [] else
  let available := (bytes o).length - start
  pure (((bytes o).drop start).take (min available n))

class VectorOrigin (w : outParam ℕ) (σ : Type) extends Origin σ where
  bytes : σ → Bytes
  len_eq : ∀ o, Origin.len o = (bytes o).length
  read_eq : ∀ offset n, Origin.read offset n = readVector w bytes offset n

structure MemoryOrigin (w : ℕ) where
  data : Bytes
  deriving DecidableEq

/-- `resize` zero-fills up to the end of the write, and `overlay` does both at once. -/
instance : VectorOrigin w (MemoryOrigin w) where
  len o := o.data.length
  read := readVector w MemoryOrigin.data
  write offset data := do
    let o ← get
    let start := asUsize w offset
    if start + data.length < 2 ^ w then
      if start + data.length > o.data.length ∧ 2 ^ (w - 1) ≤ start + data.length then
        throw (.panic .capacity)
      else set (⟨overlay o.data start data⟩ : MemoryOrigin w)
    else throw (.err (.outOfBounds offset (2 ^ 64 - 1)))
  flush := pure ()
  bytes := MemoryOrigin.data
  len_eq _ := rfl
  read_eq _ _ := rfl

/-- A memory origin with the capacity of its vector. -/
structure GrowingOrigin (w : ℕ) where
  data : Bytes
  capacity : ℕ
  fits : data.length ≤ capacity
  bounded : capacity < 2 ^ (w - 1)

/-- The origin over a vector with no room to spare. -/
def GrowingOrigin.withBytes (data : Bytes) (h : data.length < 2 ^ (w - 1)) : GrowingOrigin w :=
  ⟨data, data.length, le_rfl, h⟩

def GrowingOrigin.written (o : GrowingOrigin w) (start : ℕ) (data : Bytes)
    (h : grow 1 o.capacity (start + data.length) < 2 ^ (w - 1)) : GrowingOrigin w where
  data := overlay o.data start data
  capacity := grow 1 o.capacity (start + data.length)
  fits := by
    rw [length_overlay]
    exact max_le (o.fits.trans (cap_le_grow _ _ _)) (le_grow _ _ _)
  bounded := h

/-- The same origin, with the growth of the vector: a write within the capacity asks for nothing. -/
instance : VectorOrigin w (GrowingOrigin w) where
  len o := o.data.length
  read := readVector w GrowingOrigin.data
  write offset data := do
    let o ← get
    let start := asUsize w offset
    if start + data.length < 2 ^ w then
      if h : grow 1 o.capacity (start + data.length) < 2 ^ (w - 1) then set (o.written start data h)
      else throw (.panic .capacity)
    else throw (.err (.outOfBounds offset (2 ^ 64 - 1)))
  flush := pure ()
  bytes := GrowingOrigin.data
  len_eq _ := rfl
  read_eq _ _ := rfl

variable {offset n : ℕ} {data : Bytes}

theorem asUsize_of_lt (h : n < 2 ^ w) : asUsize w n = n := Nat.mod_eq_of_lt h

/-- A read takes the bytes behind the cast offset, as many as there are. -/
theorem vectorRead_spec [VectorOrigin w σ] (o : σ) (offset n : ℕ)
    {E : Stop OriginError → σ → Prop} :
    Ensures (Origin.read offset n) o
      (fun data o' => data = ((VectorOrigin.bytes o).drop (asUsize w offset)).take n ∧ o' = o)
      E := by
  rw [VectorOrigin.read_eq, readVector, ensures_bind, ensures_get]
  apply ensures_ite
  · intro hend
    rw [ensures_pure, List.drop_eq_nil_of_le hend, List.take_nil]
    exact ⟨rfl, rfl⟩
  · intro _
    rw [ensures_pure, ← List.length_drop, min_comm, ← List.take_eq_take_min]
    exact ⟨rfl, rfl⟩

/-- A write inside the vector or below `isize::MAX` overlays the bytes. -/
theorem memoryWrite_spec (o : MemoryOrigin w) (hend : offset + data.length < 2 ^ w)
    (hgrow : offset + data.length ≤ o.data.length ∨ offset + data.length < 2 ^ (w - 1))
    {E : Stop OriginError → MemoryOrigin w → Prop} :
    Ensures (Origin.write offset data) o (fun _ o' => o' = ⟨overlay o.data offset data⟩) E := by
  change Ensures (get >>= _) o _ _
  have hcast : asUsize w offset = offset := asUsize_of_lt (by omega)
  rw [ensures_bind, ensures_get, hcast, if_pos hend, if_neg (by omega), ensures_set]

/-- A write below the end of the address space panics if the vector cannot grow for it. -/
theorem growingWrite_spec (o : GrowingOrigin w) (hend : offset + data.length < 2 ^ w) :
    Ensures (Origin.write offset data) o
      (fun _ o' => o'.data = overlay o.data offset data ∧
        o'.capacity = grow 1 o.capacity (offset + data.length))
      (fun e _ => e = .panic .capacity ∧ 2 ^ (w - 1) ≤ grow 1 o.capacity (offset + data.length)) := by
  change Ensures (get >>= _) o _ _
  have hcast : asUsize w offset = offset := asUsize_of_lt (by omega)
  rw [ensures_bind, ensures_get, hcast, if_pos hend]
  by_cases hroom : grow 1 o.capacity (offset + data.length) < 2 ^ (w - 1)
  · rw [dif_pos hroom, ensures_set]
    exact ⟨rfl, rfl⟩
  · rw [dif_neg hroom, ensures_throw]
    exact ⟨rfl, Nat.le_of_not_lt hroom⟩

end Chton.MemoryOrigins
