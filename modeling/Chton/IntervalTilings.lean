import Mathlib.Algebra.BigOperators.Group.Finset.Basic
import Mathlib.Order.Interval.Finset.Nat
import Mathlib.Data.Set.Card
import Mathlib.Algebra.Order.BigOperators.Group.Finset
import Mathlib.Order.CompletePartialOrder

/-!
# Address intervals tiled by owned spans

Every owner of a set holds one nonempty span of addresses, the spans lie inside
`[lo, hi)`, and every address of the interval lies in the span of exactly one owner.
The rules cover what an allocator does: a new owner takes fresh addresses at the end,
and a span passes from one owner to another. Counting addresses turns a tiling into
an equation between the length of the interval and the sizes of the spans.
-/

namespace Chton.IntervalTilings

variable {ι κ : Type}

structure Tiling (owns : Set ι) (start size : ι → ℕ) (lo hi : ℕ) : Prop where
  le : lo ≤ hi
  pos : ∀ i ∈ owns, 0 < size i
  lower : ∀ i ∈ owns, lo ≤ start i
  upper : ∀ i ∈ owns, start i + size i ≤ hi
  cover : ∀ x, lo ≤ x → x < hi → ∃ i ∈ owns, start i ≤ x ∧ x < start i + size i
  unique : ∀ i ∈ owns, ∀ j ∈ owns, ∀ x, start i ≤ x → x < start i + size i →
    start j ≤ x → x < start j + size j → i = j

variable {owns : Set ι} {start size : ι → ℕ} {lo hi : ℕ}

theorem Tiling.empty (start size : ι → ℕ) (lo : ℕ) : Tiling ∅ start size lo lo where
  le := le_rfl
  pos _ h := h.elim
  lower _ h := h.elim
  upper _ h := h.elim
  cover x h₁ h₂ := by omega
  unique _ h := h.elim

/-- Two owners hold spans that do not overlap. -/
theorem Tiling.disjoint (h : Tiling owns start size lo hi) {i j : ι} (hi : i ∈ owns)
    (hj : j ∈ owns) (hij : i ≠ j) :
    start i + size i ≤ start j ∨ start j + size j ≤ start i := by
  by_contra hc
  have hip := h.pos i hi
  have hjp := h.pos j hj
  refine hij (h.unique i hi j hj (max (start i) (start j)) ?_ ?_ ?_ ?_) <;> omega

/-- A new owner takes the `size' i` addresses at the end of the interval. -/
theorem Tiling.grow (h : Tiling owns start size lo hi) (start' size' : ι → ℕ) (i : ι)
    (hstart : ∀ j ∈ owns, start' j = start j) (hsize : ∀ j ∈ owns, size' j = size j)
    (hi' : start' i = hi) (hpos : 0 < size' i) :
    Tiling (insert i owns) start' size' lo (hi + size' i) where
  le := by have := h.le; omega
  pos j hj := by
    rcases hj with rfl | hj
    · exact hpos
    · rw [hsize j hj]; exact h.pos j hj
  lower j hj := by
    rcases hj with rfl | hj
    · rw [hi']; exact h.le
    · rw [hstart j hj]; exact h.lower j hj
  upper j hj := by
    rcases hj with rfl | hj
    · rw [hi']
    · rw [hstart j hj, hsize j hj]
      exact (h.upper j hj).trans (Nat.le_add_right _ _)
  cover x h₁ h₂ := by
    by_cases hx : x < hi
    · obtain ⟨j, hj, hj₁, hj₂⟩ := h.cover x h₁ hx
      refine ⟨j, .inr hj, ?_⟩
      rw [hstart j hj, hsize j hj]
      exact ⟨hj₁, hj₂⟩
    · exact ⟨i, .inl rfl, by omega, by omega⟩
  unique := by
    have hfresh : ∀ j ∈ owns, ∀ x, x < start j + size j → ¬hi ≤ x := by
      intro j hj x hx hge
      have := h.upper j hj
      omega
    rintro j (rfl | hj) k (rfl | hk) x h₁ h₂ h₃ h₄
    · rfl
    · rw [hstart k hk, hsize k hk] at h₄
      exact (hfresh k hk x h₄ (hi' ▸ h₁)).elim
    · rw [hstart j hj, hsize j hj] at h₂
      exact (hfresh j hj x h₂ (hi' ▸ h₃)).elim
    · rw [hstart j hj] at h₁
      rw [hstart j hj, hsize j hj] at h₂
      rw [hstart k hk] at h₃
      rw [hstart k hk, hsize k hk] at h₄
      exact h.unique j hj k hk x h₁ h₂ h₃ h₄

/-- Spans may change hands: owners are renamed without changing what they hold. -/
theorem Tiling.rename (h : Tiling owns start size lo hi) {owns' : Set κ} {start' size' : κ → ℕ}
    (f : ι → κ) (hf : ∀ i ∈ owns, f i ∈ owns') (hsurj : ∀ k ∈ owns', ∃ i ∈ owns, f i = k)
    (hstart : ∀ i ∈ owns, start' (f i) = start i) (hsize : ∀ i ∈ owns, size' (f i) = size i) :
    Tiling owns' start' size' lo hi where
  le := h.le
  pos k hk := by
    obtain ⟨i, hi, rfl⟩ := hsurj k hk
    rw [hsize i hi]; exact h.pos i hi
  lower k hk := by
    obtain ⟨i, hi, rfl⟩ := hsurj k hk
    rw [hstart i hi]; exact h.lower i hi
  upper k hk := by
    obtain ⟨i, hi, rfl⟩ := hsurj k hk
    rw [hstart i hi, hsize i hi]; exact h.upper i hi
  cover x h₁ h₂ := by
    obtain ⟨i, hi, hx⟩ := h.cover x h₁ h₂
    exact ⟨f i, hf i hi, by rwa [hstart i hi, hsize i hi]⟩
  unique k hk l hl x h₁ h₂ h₃ h₄ := by
    obtain ⟨i, hi, rfl⟩ := hsurj k hk
    obtain ⟨j, hj, rfl⟩ := hsurj l hl
    rw [hstart i hi] at h₁
    rw [hstart i hi, hsize i hi] at h₂
    rw [hstart j hj] at h₃
    rw [hstart j hj, hsize j hj] at h₄
    rw [h.unique i hi j hj x h₁ h₂ h₃ h₄]

/-- Different owners start at different addresses. -/
theorem Tiling.start_inj (h : Tiling owns start size lo hi) : Set.InjOn start owns := by
  intro i hi j hj hij
  have := h.pos i hi
  have := h.pos j hj
  exact h.unique i hi j hj (start i) le_rfl (by omega) (by omega) (by omega)

theorem Tiling.finite (h : Tiling owns start size lo hi) : owns.Finite := by
  refine Set.Finite.of_finite_image ((Set.finite_Ico lo hi).subset ?_) h.start_inj
  rintro _ ⟨i, hi, rfl⟩
  have := h.pos i hi
  have := h.upper i hi
  exact ⟨h.lower i hi, by omega⟩

/-- The sizes of the spans add up to the length of the interval. -/
theorem Tiling.sum_size (h : Tiling owns start size lo hi) :
    lo + ∑ i ∈ h.finite.toFinset, size i = hi := by
  classical
  have hunion : Finset.Ico lo hi =
      h.finite.toFinset.biUnion fun i => Finset.Ico (start i) (start i + size i) := by
    ext x
    simp only [Finset.mem_Ico, Finset.mem_biUnion, Set.Finite.mem_toFinset]
    constructor
    · rintro ⟨h₁, h₂⟩
      exact h.cover x h₁ h₂
    · rintro ⟨i, hi, h₁, h₂⟩
      exact ⟨(h.lower i hi).trans h₁, h₂.trans_le (h.upper i hi)⟩
  have hdisj : (h.finite.toFinset : Set ι).PairwiseDisjoint
      fun i => Finset.Ico (start i) (start i + size i) := by
    intro i hi j hj hij
    rw [Set.Finite.coe_toFinset] at hi hj
    refine Finset.disjoint_left.mpr fun x hx hy => hij ?_
    rw [Finset.mem_Ico] at hx hy
    exact h.unique i hi j hj x hx.1 hx.2 hy.1 hy.2
  have hcard := congrArg Finset.card hunion
  rw [Finset.card_biUnion hdisj] at hcard
  simp only [Nat.card_Ico, Nat.add_sub_cancel_left] at hcard
  have := h.le
  omega

/-- The equation for owners of two kinds, each with its own span size. -/
theorem Tiling.two_kinds (h : Tiling owns start size lo hi) {A B : Set ι} {a b : ℕ}
    (hAB : owns = A ∪ B) (hd : Disjoint A B) (hA : ∀ i ∈ A, size i = a)
    (hB : ∀ i ∈ B, size i = b) : hi = lo + A.ncard * a + B.ncard * b := by
  classical
  have hAf : A.Finite := h.finite.subset (hAB ▸ Set.subset_union_left)
  have hBf : B.Finite := h.finite.subset (hAB ▸ Set.subset_union_right)
  have hsplit : h.finite.toFinset = hAf.toFinset ∪ hBf.toFinset := by
    ext i
    simp [hAB]
  have hd' : Disjoint hAf.toFinset hBf.toFinset := by
    rwa [Set.Finite.disjoint_toFinset]
  have hsum := h.sum_size
  rw [hsplit, Finset.sum_union hd',
    Finset.sum_congr rfl (fun i hi => hA i (by simpa using hi)),
    Finset.sum_congr rfl (fun i hi => hB i (by simpa using hi)),
    Finset.sum_const, Finset.sum_const, ← Set.ncard_eq_toFinset_card A hAf,
    ← Set.ncard_eq_toFinset_card B hBf, Nat.nsmul_eq_mul, Nat.nsmul_eq_mul] at hsum
  omega

/-- Owners whose spans have at least `k` addresses are few. -/
theorem Tiling.ncard_mul_le (h : Tiling owns start size lo hi) {A : Set ι} {k : ℕ}
    (hA : A ⊆ owns) (hk : ∀ i ∈ A, k ≤ size i) : A.ncard * k ≤ hi := by
  classical
  have hAf : A.Finite := h.finite.subset hA
  have hle : ∑ _i ∈ hAf.toFinset, k ≤ ∑ i ∈ h.finite.toFinset, size i :=
    (Finset.sum_le_sum fun i hi => hk i (by simpa using hi)).trans
      (Finset.sum_le_sum_of_subset (by simpa using hA))
  rw [Finset.sum_const, ← Set.ncard_eq_toFinset_card A hAf, Nat.nsmul_eq_mul] at hle
  have := h.sum_size
  omega

end Chton.IntervalTilings
