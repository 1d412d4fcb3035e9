import Mathlib.Order.Monotone.Basic
import Mathlib.Order.Lattice

/-!
# Vectors that grow

A vector has a capacity. A request beyond it at least doubles the capacity, and asks for a few
elements at least. How much memory a vector asks for is therefore a matter of the requests
before: one that ends below a bound never takes the capacity to twice the bound.
-/

namespace Chton.GrowingVectors

variable {size cap n k : ℕ}

/-- The least capacity of a vector that is not empty, by the size of its elements in bytes. -/
def minNonZeroCap (size : ℕ) : ℕ :=
  if size = 1 then 8 else if size ≤ 1024 then 4 else 1

/-- The capacity that makes room for `n` elements in all. -/
def grow (size cap n : ℕ) : ℕ :=
  if n ≤ cap then cap else max (max (2 * cap) n) (minNonZeroCap size)

def pushed (size : ℕ) : ℕ → ℕ
  | 0 => 0
  | n + 1 => grow size (pushed size n) (n + 1)

theorem grow_of_le (h : n ≤ cap) : grow size cap n = cap := if_pos h

theorem le_grow (size cap n : ℕ) : n ≤ grow size cap n := by
  rw [grow]
  split_ifs with h
  · exact h
  · exact (le_max_right _ _).trans (le_max_left _ _)

theorem cap_le_grow (size cap n : ℕ) : cap ≤ grow size cap n := by
  rw [grow]
  split_ifs with h
  · exact le_rfl
  · have hdouble : cap ≤ 2 * cap := by omega
    exact hdouble.trans ((le_max_left _ _).trans (le_max_left _ _))

theorem minNonZeroCap_le (size : ℕ) : minNonZeroCap size ≤ 8 := by
  rw [minNonZeroCap]
  split_ifs
  · exact le_rfl
  · decide
  · decide

/-- A vector that has to grow for `n` elements was smaller than that. -/
theorem grow_lt (hcap : cap < k) (hn : 2 * n ≤ k) (h8 : 8 < k) : grow size cap n < k := by
  have hmin := minNonZeroCap_le size
  rw [grow]
  split_ifs with h
  · exact hcap
  · exact max_lt (max_lt (by omega) (by omega)) (by omega)

theorem pushed_mono (size : ℕ) : Monotone (pushed size) :=
  monotone_nat_of_le_succ fun _ => cap_le_grow _ _ _

end Chton.GrowingVectors
