import Mathlib.Algebra.BigOperators.Group.Finset.Basic
import Mathlib.Data.Nat.Digits.Defs
import Mathlib.Tactic.Ring

/-!
# Numerals with the leading digit first

A numeral in base `b` is its list of digits, most significant first; Mathlib's
`Nat.ofDigits` reads the list the other way round. Numerals of one length are equal
when their numbers are, and long division by `d` takes the digits one at a time, with
a remainder below `d` carried along.
-/

namespace Chton.PlaceValues

/-- The number of a numeral in base `b`. -/
def value (b : ℕ) (ds : List ℕ) : ℕ := Nat.ofDigits b ds.reverse

/-- The `k` low digits of `n` in base `b`. -/
def digits (b : ℕ) : ℕ → ℕ → List ℕ
  | 0, _ => []
  | k + 1, n => n / b ^ k % b :: digits b k n

variable {b d : ℕ} {ds es : List ℕ}

@[simp] theorem value_nil : value b [] = 0 := rfl

theorem value_concat (x : ℕ) : value b (ds ++ [x]) = value b ds * b + x := by
  rw [value, List.reverse_append, List.reverse_singleton, List.singleton_append, Nat.ofDigits_cons]
  exact (Nat.add_comm _ _).trans (congrArg (· + x) (Nat.mul_comm _ _))

theorem value_cons (x : ℕ) : value b (x :: ds) = x * b ^ ds.length + value b ds := by
  rw [value, List.reverse_cons, Nat.ofDigits_append, Nat.ofDigits_singleton, List.length_reverse]
  rw [← value]
  ring

/-- Each digit counts with the power of the base at its place. -/
theorem value_eq_sum (b : ℕ) (ds : List ℕ) :
    value b ds = ∑ i ∈ Finset.range ds.length, ds.getD i 0 * b ^ (ds.length - 1 - i) := by
  induction ds with
  | nil => rfl
  | cons x ds ih =>
    rw [value_cons, List.length_cons, Finset.sum_range_succ', ih, Nat.add_comm]
    congr 1
    apply Finset.sum_congr rfl
    intro i _
    rw [List.getD_cons_succ]
    congr 2
    omega

theorem value_inj (hb : 1 < b) (hlen : ds.length = es.length) (hds : ∀ x ∈ ds, x < b)
    (hes : ∀ x ∈ es, x < b) (h : value b ds = value b es) : ds = es := by
  have hrev : ds.reverse = es.reverse := by
    apply Nat.ofDigits_inj_of_len_eq hb
    · rw [List.length_reverse, List.length_reverse, hlen]
    · intro x hx
      exact hds x (List.mem_reverse.mp hx)
    · intro x hx
      exact hes x (List.mem_reverse.mp hx)
    · exact h
  exact List.reverse_inj.mp hrev

theorem value_eq_zero (hb : 0 < b) : value b ds = 0 ↔ ∀ x ∈ ds, x = 0 := by
  induction ds with
  | nil => simp
  | cons x ds ih =>
    have hpow : b ^ ds.length ≠ 0 := (Nat.pow_pos hb).ne'
    rw [value_cons, Nat.add_eq_zero_iff, Nat.mul_eq_zero, or_iff_left hpow, ih,
      List.forall_mem_cons]

@[simp] theorem length_digits (b k n : ℕ) : (digits b k n).length = k := by
  induction k with
  | zero => rfl
  | succ k ih => simp [digits, ih]

theorem lt_of_mem_digits (hb : 0 < b) {k n x : ℕ} (hx : x ∈ digits b k n) : x < b := by
  induction k with
  | zero => simp [digits] at hx
  | succ k ih =>
    rw [digits, List.mem_cons] at hx
    rcases hx with rfl | hx
    · exact Nat.mod_lt _ hb
    · exact ih hx

theorem value_digits (b k n : ℕ) : value b (digits b k n) = n % b ^ k := by
  induction k with
  | zero => simp [digits, Nat.mod_one]
  | succ k ih =>
    rw [digits, value_cons, ih, length_digits, Nat.mod_pow_succ]
    ring

theorem value_lt (hds : ∀ x ∈ ds, x < b) : value b ds < b ^ ds.length := by
  induction ds with
  | nil => exact Nat.one_pos
  | cons x ds ih =>
    obtain ⟨hx, hds⟩ := List.forall_mem_cons.mp hds
    rw [value_cons, List.length_cons, Nat.pow_succ]
    calc x * b ^ ds.length + value b ds < x * b ^ ds.length + b ^ ds.length := by
          have := ih hds
          omega
      _ = (x + 1) * b ^ ds.length := by ring
      _ ≤ b ^ ds.length * b := by
          rw [Nat.mul_comm]
          exact Nat.mul_le_mul_left _ hx

/-- The leading digit decides unless it is shared. -/
theorem value_cons_lt {x y : ℕ} (hlen : ds.length = es.length)
    (hds : ∀ z ∈ ds, z < b) (hxy : x < y) : value b (x :: ds) < value b (y :: es) := by
  rw [value_cons, value_cons, hlen]
  calc x * b ^ es.length + value b ds < x * b ^ es.length + b ^ es.length := by
        have := value_lt hds
        rw [hlen] at this
        omega
    _ = (x + 1) * b ^ es.length := by ring
    _ ≤ y * b ^ es.length := Nat.mul_le_mul_right _ hxy
    _ ≤ y * b ^ es.length + value b es := Nat.le_add_right _ _

theorem compare_congr {m n m' n' : ℕ} (hlt : m < n ↔ m' < n') (hgt : n < m ↔ n' < m') :
    compare m n = compare m' n' := by
  rw [Nat.compare_eq_ite_lt, Nat.compare_eq_ite_lt]
  simp only [hlt, hgt]

theorem compareLex_eq (hlen : ds.length = es.length) (hds : ∀ x ∈ ds, x < b)
    (hes : ∀ x ∈ es, x < b) :
    List.compareLex compare ds es = compare (value b ds) (value b es) := by
  induction ds generalizing es with
  | nil =>
    rw [List.length_eq_zero_iff.mp hlen.symm]
    rfl
  | cons x ds ih =>
    cases es with
    | nil => cases hlen
    | cons y es =>
      have hlen' : ds.length = es.length := Nat.succ.inj hlen
      have hds' := (List.forall_mem_cons.mp hds).2
      have hes' := (List.forall_mem_cons.mp hes).2
      rw [List.compareLex_cons_cons]
      rcases Nat.lt_trichotomy x y with hxy | rfl | hxy
      · rw [Nat.compare_eq_lt.mpr hxy, Nat.compare_eq_lt.mpr (value_cons_lt hlen' hds' hxy)]
        rfl
      · rw [Nat.compare_eq_eq.mpr rfl, ih hlen' hds' hes', value_cons, value_cons, hlen']
        exact compare_congr (Nat.add_lt_add_iff_left).symm (Nat.add_lt_add_iff_left).symm
      · rw [Nat.compare_eq_gt.mpr hxy, Nat.compare_eq_gt.mpr (value_cons_lt hlen'.symm hes' hxy)]
        rfl

/-- Division brings one more digit of the dividend down. -/
theorem value_div_step {q : List ℕ} {r : ℕ} (h : value b q * d + r = value b ds) (x : ℕ) :
    value b (q ++ [(r * b + x) / d]) * d + (r * b + x) % d = value b (ds ++ [x]) := by
  have hx : d * ((r * b + x) / d) + (r * b + x) % d = r * b + x := Nat.div_add_mod _ _
  calc value b (q ++ [(r * b + x) / d]) * d + (r * b + x) % d
      = value b q * d * b + (d * ((r * b + x) / d) + (r * b + x) % d) := by
        rw [value_concat]
        ring
    _ = (value b q * d + r) * b + x := by
        rw [hx]
        ring
    _ = value b (ds ++ [x]) := by rw [h, value_concat]

/-- A remainder below the divisor leaves a quotient digit below the base. -/
theorem div_step_lt {r x : ℕ} (hr : r < d) (hx : x < b) : (r * b + x) / d < b := by
  apply Nat.div_lt_of_lt_mul
  calc r * b + x < r * b + b := by omega
    _ = (r + 1) * b := by ring
    _ ≤ d * b := Nat.mul_le_mul_right b hr

end Chton.PlaceValues
