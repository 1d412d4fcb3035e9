import Mathlib.Data.Nat.Basic

/-!
# Single bits of a byte

Setting or clearing the bits of one mask decides what is seen through that mask and
changes nothing seen through a mask without a common bit.
-/

namespace Chton.ByteBits

variable {x b c : UInt8}

theorem or_and_self (x b : UInt8) : (x ||| b) &&& b = b := by
  apply UInt8.toBitVec_inj.1
  ext i hi
  simp only [UInt8.toBitVec_and, UInt8.toBitVec_or, BitVec.getElem_and, BitVec.getElem_or]
  cases x.toBitVec[i] <;> cases b.toBitVec[i] <;> rfl

theorem and_not_and_self (x b : UInt8) : x &&& ~~~b &&& b = 0 := by
  apply UInt8.toBitVec_inj.1
  ext i hi
  simp

private theorem clear_or_clear (h : b &&& c = 0) (i : ℕ) (hi : i < 8) :
    b.toBitVec[i] = false ∨ c.toBitVec[i] = false := by
  have := congrArg (fun x : UInt8 => x.toBitVec[i]) h
  simpa [← Bool.and_eq_false_iff] using this

theorem or_and_of_disjoint (h : b &&& c = 0) : (x ||| b) &&& c = x &&& c := by
  apply UInt8.toBitVec_inj.1
  ext i hi
  have := clear_or_clear h i hi
  simp only [UInt8.toBitVec_and, UInt8.toBitVec_or, BitVec.getElem_and, BitVec.getElem_or]
  cases hb : b.toBitVec[i] <;> simp_all

theorem and_not_and_of_disjoint (h : b &&& c = 0) : x &&& ~~~b &&& c = x &&& c := by
  apply UInt8.toBitVec_inj.1
  ext i hi
  have := clear_or_clear h i hi
  simp only [UInt8.toBitVec_and, UInt8.toBitVec_not, BitVec.getElem_and, BitVec.getElem_not]
  cases hb : b.toBitVec[i] <;> simp_all

theorem shift_disjoint : ∀ j k : Fin 8, j ≠ k →
    (1 : UInt8) <<< UInt8.ofNat j.val &&& 1 <<< UInt8.ofNat k.val = 0 := by decide

theorem shift_ne_zero : ∀ j : Fin 8, (1 : UInt8) <<< UInt8.ofNat j.val ≠ 0 := by decide

end Chton.ByteBits
