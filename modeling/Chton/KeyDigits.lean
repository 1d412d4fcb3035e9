import Chton.StringKeys

/-!
# The digits of a general key

A key outside the canonical format is written in base 11172 digit by digit. The keys that
do not fit are refused, and no machine word of the division loses a bit.
-/

namespace Chton.KeyDigits
open TextBytes Origins TreeStrategyProgram PlaceValues StringKeys

variable {fromChar : Char → Option Coord} {M : ℕ} {key : String}

/-- The words of one step of the division are in range: the `u32` product and sum, the
quotient that becomes a `u8`, and the remainder that becomes a `u16`. -/
structure InRange (s : Division) (b : UInt8) : Prop where
  product : s.rem.toNat * 256 < 2 ^ 32
  sum : s.rem.toNat * 256 + b.toNat < 2 ^ 32
  quotient : (s.rem.toNat * 256 + b.toNat) / 11172 < 256
  rem : (s.step b).rem.toNat < 11172

theorem division_inRange (pre : List UInt8) (b : UInt8) :
    InRange (pre.foldl Division.step ⟨0, [], false⟩) b := by
  have hstart : (⟨0, [], false⟩ : Division).Divides [] := ⟨by decide, rfl, fun _ => rfl⟩
  have hdiv := hstart.foldl pre
  have hrem := hdiv.rem_lt
  have hb : b.toNat < 256 := b.toNat_lt
  refine ⟨?_, ?_, div_step_lt hrem hb, (hdiv.step b).rem_lt⟩
  · omega
  · omega

/-- The path of a key is its number in base 11172, marked with its length. -/
structure Digits (M : ℕ) (key : String) (p : CoordPath M) : Prop where
  sum : ∑ i ∈ Finset.range (M - 1), (p.coords.getD i 0).val * 11172 ^ (M - 2 - i) =
    number (asBytes key)
  digit_lt : ∀ i, (p.coords.getD i 0).val < 11172
  marker : (p.coords.getD (M - 1) 0).val = (asBytes key).length

theorem digits_of_marked {p : CoordPath M} {payload : List Coord} {marker : Coord}
    (h : Marked p payload marker) (hmarker : marker.val = (asBytes key).length)
    (hvalue : value 11172 (payload.map Fin.val) = number (asBytes key)) : Digits M key p := by
  constructor
  · rw [← hvalue, value_eq_sum, List.length_map, h.length_payload]
    apply Finset.sum_congr rfl
    intro i hi
    have hlt : i < payload.length := by
      rw [h.length_payload]
      exact Finset.mem_range.mp hi
    have hdigit : (payload.map Fin.val).getD i 0 = (payload.getD i 0).val :=
      List.getD_map payload 0 Fin.val
    rw [h.coords, List.getD_append _ _ _ _ hlt, hdigit]
    congr 2
  · exact fun i => (p.coords.getD i 0).isLt
  · rw [h.coords, ← h.length_payload, List.getD_append_right _ _ _ _ (Nat.le_refl _), Nat.sub_self]
    exact hmarker

theorem strToCoordpath_general (hgeneral : ¬Canonical fromChar M key) :
    strToCoordpath fromChar M key = encodeGeneral M key := if_neg hgeneral

/-- A key that is not canonical is refused when it is empty or does not fit, and otherwise
mapped to its digits. -/
theorem general_key_digits (hM : 2 ≤ M) (hgeneral : ¬Canonical fromChar M key) :
    (strToCoordpath fromChar M key = .error (.err .empty) ↔ asBytes key = []) ∧
    (asBytes key ≠ [] → ((∃ p, strToCoordpath fromChar M key = .ok p) ↔
      number (asBytes key) < 11172 ^ (M - 1) ∧ (asBytes key).length ≤ 11171)) ∧
    (∀ p, strToCoordpath fromChar M key = .ok p → Digits M key p) ∧
    (asBytes key ≠ [] →
      ¬(number (asBytes key) < 11172 ^ (M - 1) ∧ (asBytes key).length ≤ 11171) →
      strToCoordpath fromChar M key = .error (.err (.tooLong (asBytes key).length (M - 1)))) ∧
    ∀ (pre : List UInt8) (b : UInt8), InRange (pre.foldl Division.step ⟨0, [], false⟩) b := by
  obtain ⟨m, rfl⟩ : ∃ m, M = m + 1 := ⟨M - 1, by omega⟩
  have hfits : Fits m key ↔
      number (asBytes key) < 11172 ^ m ∧ (asBytes key).length ≤ 11171 := by
    rw [Fits, ← Nat.lt_succ_iff]
  have hempty : asBytes key = [] ↔ (asBytes key).length = 0 := List.length_eq_zero_iff.symm
  rw [strToCoordpath_general hgeneral, Nat.add_sub_cancel, ← hfits, Ne, hempty]
  refine ⟨?_, ?_, ?_, fun hkey h => encodeGeneral_long hkey h, division_inRange⟩
  · constructor
    · intro herror
      by_contra hkey
      by_cases h : Fits m key
      · obtain ⟨p, -, -, hp, -⟩ := encodeGeneral_fits hkey h
        exact nomatch herror.symm.trans hp
      · exact nomatch herror.symm.trans (encodeGeneral_long hkey h)
    · exact encodeGeneral_empty
  · intro hkey
    constructor
    · intro hok
      obtain ⟨p, hp⟩ := hok
      by_contra hlong
      exact nomatch (encodeGeneral_long hkey hlong).symm.trans hp
    · intro h
      obtain ⟨p, -, -, hp, -⟩ := encodeGeneral_fits hkey h
      exact ⟨p, hp⟩
  · intro p hp
    obtain ⟨payload, marker, hmarked, hcases⟩ :=
      path_spec hM ((strToCoordpath_general hgeneral).trans hp)
    rcases hcases with ⟨hcanonical, -⟩ | ⟨-, hmarker, -, hvalue⟩
    · exact absurd hcanonical hgeneral
    · exact digits_of_marked hmarked hmarker hvalue

/-- At depth 3 the two bytes of "ab" are the digits 2 and 2586. -/
theorem general_key_digits_hangul :
    (∃ p, strToCoordpath hangul 3 "ab" = .ok p) ∧ Digits 3 "ab" ⟨[2, 2586, 2], by decide⟩ := by
  have hgeneral : ¬Canonical hangul 3 "ab" := by decide +kernel
  have h := general_key_digits (by decide) hgeneral
  have hp : strToCoordpath hangul 3 "ab" = .ok ⟨[2, 2586, 2], by decide⟩ := by decide +kernel
  exact ⟨⟨_, hp⟩, h.2.2.1 _ hp⟩

end Chton.KeyDigits
