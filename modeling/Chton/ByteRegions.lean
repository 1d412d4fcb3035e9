import Chton.LittleEndianWords
import Mathlib.Data.List.Basic
import Mathlib.Data.List.GetD

/-!
# Byte regions that grow when written

A region is a list of bytes. `peek` reads one byte and gives zero beyond the end,
`overlay` writes bytes at an offset and fills a gap with zeros, and `window` is
the run of bytes at an offset. A window that a write does not touch is the same
before and after it; that single frame rule is what every later argument about
unchanged data rests on.
-/

namespace Chton.ByteRegions
open LittleEndianWords

abbrev Bytes := List UInt8

def peek (b : Bytes) (i : ℕ) : UInt8 := b.getD i 0

/-- Write `d` at `off`, extending the region with zeros where needed. -/
def overlay (b : Bytes) (off : ℕ) (d : Bytes) : Bytes :=
  (b ++ List.replicate (off - b.length) 0).take off ++ d ++ b.drop (off + d.length)

def window (b : Bytes) (off n : ℕ) : Bytes := (List.range n).map fun k => peek b (off + k)

/-- The little-endian word of eight bytes at `off`. -/
def wordAt (b : Bytes) (off : ℕ) : ℕ := decode (window b off 8)

variable {b b' d : Bytes} {off pos n i : ℕ}

theorem peek_of_le (h : b.length ≤ i) : peek b i = 0 := by
  simp [peek, List.getD_eq_getElem?_getD, h]

@[simp] theorem length_overlay (b : Bytes) (off : ℕ) (d : Bytes) :
    (overlay b off d).length = max b.length (off + d.length) := by
  simp only [overlay, List.length_append, List.length_take, List.length_replicate,
    List.length_drop]
  omega

theorem overlay_empty (h : off ≤ b.length) : overlay b off [] = b := by
  have hgap : off - b.length = 0 := Nat.sub_eq_zero_of_le h
  simp [overlay, hgap]

theorem peek_overlay (b : Bytes) (off : ℕ) (d : Bytes) (i : ℕ) :
    peek (overlay b off d) i =
      if off ≤ i ∧ i < off + d.length then peek d (i - off) else peek b i := by
  have hpad : ((b ++ List.replicate (off - b.length) 0).take off).length = off := by
    simp only [List.length_take, List.length_append, List.length_replicate]
    omega
  simp only [peek, overlay, List.getD_eq_getElem?_getD]
  by_cases hlo : i < off
  · rw [if_neg (by omega), List.append_assoc, List.getElem?_append_left (by omega),
      List.getElem?_take_of_lt hlo]
    by_cases hb : i < b.length
    · rw [List.getElem?_append_left hb]
    · rw [List.getElem?_append_right (by omega), List.getElem?_replicate,
        List.getElem?_eq_none (by omega : b.length ≤ i)]
      split <;> rfl
  · by_cases hhi : i < off + d.length
    · rw [if_pos ⟨by omega, hhi⟩, List.getElem?_append_left (by simp only [List.length_append]; omega),
        List.getElem?_append_right (by omega), hpad]
    · rw [if_neg (by omega), List.getElem?_append_right (by simp only [List.length_append]; omega),
        List.getElem?_drop, List.length_append, hpad]
      congr 2
      omega

theorem peek_overlay_of_not (h : i < off ∨ off + d.length ≤ i) :
    peek (overlay b off d) i = peek b i := by
  rw [peek_overlay, if_neg (by omega)]

@[simp] theorem length_window (b : Bytes) (off n : ℕ) : (window b off n).length = n := by
  simp [window]

theorem window_congr (h : ∀ i, off ≤ i → i < off + n → peek b i = peek b' i) :
    window b off n = window b' off n := by
  refine List.map_congr_left fun k hk => h _ (by omega) ?_
  have := List.mem_range.mp hk
  omega

theorem window_eq_drop_take (h : off + n ≤ b.length) : window b off n = (b.drop off).take n := by
  apply List.ext_getElem
  · simp; omega
  · intro k h₁ h₂
    have hk : k < n := by simpa using h₁
    simp [window, peek, List.getD_eq_getElem?_getD,
      List.getElem?_eq_getElem (by omega : off + k < b.length)]

/-- The frame rule. -/
theorem window_overlay_of_disjoint (h : pos + n ≤ off ∨ off + d.length ≤ pos) :
    window (overlay b off d) pos n = window b pos n :=
  window_congr fun _ h₁ h₂ => peek_overlay_of_not (by omega)

@[simp] theorem window_self (d : Bytes) : window d 0 d.length = d := by
  have h : window d 0 d.length = (d.drop 0).take d.length := window_eq_drop_take (by omega)
  simpa using h

theorem window_overlay (h : n = d.length) : window (overlay b off d) off n = d := by
  subst h
  conv_rhs => rw [← window_self d]
  refine List.map_congr_left fun k hk => ?_
  have hk := List.mem_range.mp hk
  rw [peek_overlay, if_pos ⟨by omega, by omega⟩]
  congr 1
  omega

theorem window_zero (h : ∀ i, off ≤ i → i < off + n → peek b i = 0) :
    window b off n = List.replicate n 0 := by
  apply List.eq_replicate_iff.mpr
  refine ⟨length_window .., fun x hx => ?_⟩
  obtain ⟨k, hk, rfl⟩ := List.mem_map.mp hx
  have := List.mem_range.mp hk
  exact h _ (by omega) (by omega)

theorem wordAt_congr (h : ∀ i, pos ≤ i → i < pos + 8 → peek b i = peek b' i) :
    wordAt b pos = wordAt b' pos := by
  rw [wordAt, wordAt, window_congr h]

theorem wordAt_lt (b : Bytes) (pos : ℕ) : wordAt b pos < 2 ^ 64 := by
  have h := decode_lt (window b pos 8)
  rw [length_window] at h
  exact h

theorem wordAt_overlay {v : ℕ} (h : v < 2 ^ 64) :
    wordAt (overlay b pos (encode 8 v)) pos = v := by
  rw [wordAt, window_overlay (by simp), decode_encode (by simpa using h)]

theorem wordAt_zero (h : ∀ i, pos ≤ i → i < pos + 8 → peek b i = 0) : wordAt b pos = 0 := by
  rw [wordAt, window_zero h, decode_replicate_zero]

theorem wordAt_of_length_le (h : b.length ≤ pos) : wordAt b pos = 0 :=
  wordAt_zero fun _ h₁ _ => peek_of_le (by omega)

theorem decode_drop_take (h : pos + 8 ≤ b.length) :
    decode ((b.drop pos).take 8) = wordAt b pos := by
  rw [wordAt, window_eq_drop_take h]

end Chton.ByteRegions
