import Mathlib.Data.List.Lex
import Mathlib.Data.List.FinRange

/-!
# Depth-first traversals of prefix trees

A prefix tree is given by which words over an alphabet are linked. The traversal visits
the alphabet in its listed order at every linked word and collects the linked words of a
fixed length. It finds each of them once, and in lexicographic order when the alphabet is
listed in ascending order. The order of words survives a change of alphabet that keeps the order
of the letters, and padding.
-/

namespace Chton.PrefixTreeTraversals

variable {κ : Type} (letters : List κ) (linked : List κ → Prop) [DecidablePred linked]

/-- The linked words that extend `pre` by `k` letters along linked words. -/
def leaves : ℕ → List κ → List (List κ)
  | 0, pre => [pre]
  | k + 1, pre => letters.flatMap fun c =>
    if linked (pre ++ [c]) then leaves k (pre ++ [c]) else []

variable {letters linked} {k : ℕ} {pre q : List κ}

theorem exists_of_mem_leaves (h : q ∈ leaves letters linked k pre) :
    ∃ rest, q = pre ++ rest ∧ rest.length = k := by
  induction k generalizing pre with
  | zero => exact ⟨[], by simpa [leaves] using h, rfl⟩
  | succ k ih =>
    obtain ⟨c, _, hq⟩ := List.mem_flatMap.mp h
    split at hq
    · obtain ⟨rest, hrest, hk⟩ := ih hq
      exact ⟨c :: rest, by simpa using hrest, by simp [hk]⟩
    · cases hq

theorem linked_of_mem_leaves (hpre : linked pre) (h : q ∈ leaves letters linked k pre) :
    linked q := by
  induction k generalizing pre with
  | zero =>
    rw [leaves, List.mem_singleton] at h
    exact h ▸ hpre
  | succ k ih =>
    obtain ⟨c, _, hq⟩ := List.mem_flatMap.mp h
    split at hq
    · exact ih ‹_› hq
    · cases hq

omit [DecidablePred linked] in
theorem linked_of_append (hclosed : ∀ q c, linked (q ++ [c]) → linked q) {rest : List κ}
    (h : linked (q ++ rest)) : linked q := by
  induction rest generalizing q with
  | nil => simpa using h
  | cons c rest ih => exact hclosed q c (ih (by simpa using h))

/-- When linked words are closed under prefixes, the traversal misses none. -/
theorem mem_leaves_of_linked (hclosed : ∀ q c, linked (q ++ [c]) → linked q)
    (hall : ∀ c, c ∈ letters) {rest : List κ} (h : linked (pre ++ rest)) :
    pre ++ rest ∈ leaves letters linked rest.length pre := by
  induction rest generalizing pre with
  | nil => simp [leaves]
  | cons c rest ih =>
    have h' : linked (pre ++ [c] ++ rest) := by simpa using h
    refine List.mem_flatMap.mpr ⟨c, hall c, ?_⟩
    rw [if_pos (linked_of_append hclosed h')]
    simpa using ih h'

theorem mem_leaves (hclosed : ∀ q c, linked (q ++ [c]) → linked q) (hall : ∀ c, c ∈ letters)
    (hpre : linked pre) :
    q ∈ leaves letters linked k pre ↔ linked q ∧ ∃ rest, q = pre ++ rest ∧ rest.length = k := by
  constructor
  · exact fun h => ⟨linked_of_mem_leaves hpre h, exists_of_mem_leaves h⟩
  · rintro ⟨hq, rest, rfl, rfl⟩
    exact mem_leaves_of_linked hclosed hall hq

/-- The traversal lists its words in lexicographic order. -/
theorem sorted_leaves [LT κ] (hsorted : letters.Pairwise (· < ·)) :
    (leaves letters linked k pre).Pairwise (List.Lex (· < ·)) := by
  induction k generalizing pre with
  | zero => exact List.pairwise_singleton ..
  | succ k ih =>
    refine List.pairwise_flatMap.mpr ⟨fun c _ => ?_, hsorted.imp fun {c d} hcd q hq q' hq' => ?_⟩
    · split
      · exact ih
      · exact .nil
    · split at hq
      · split at hq'
        · obtain ⟨r, rfl, -⟩ := exists_of_mem_leaves hq
          obtain ⟨r', rfl, -⟩ := exists_of_mem_leaves hq'
          rw [List.append_assoc, List.append_assoc]
          exact List.Lex.append_left _ (.rel hcd) pre
        · cases hq'
      · cases hq

theorem nodup_leaves [LinearOrder κ] (hsorted : letters.Pairwise (· < ·)) :
    (leaves letters linked k pre).Nodup :=
  (sorted_leaves hsorted).imp fun h => (h.imp fun _ _ => ne_of_lt).to_ne

variable (letters linked) in
/-- The linked words that extend `pre` by one to `k` letters, each before its extensions. -/
def below : ℕ → List κ → List (List κ)
  | 0, _ => []
  | k + 1, pre => letters.flatMap fun c =>
    if linked (pre ++ [c]) then (pre ++ [c]) :: below k (pre ++ [c]) else []

theorem exists_of_mem_below (h : q ∈ below letters linked k pre) :
    linked q ∧ ∃ rest, q = pre ++ rest ∧ rest ≠ [] ∧ rest.length ≤ k := by
  induction k generalizing pre with
  | zero => cases h
  | succ k ih =>
    obtain ⟨c, -, hq⟩ := List.mem_flatMap.mp h
    split at hq
    · next hc =>
      rcases List.mem_cons.mp hq with rfl | hq
      · exact ⟨hc, [c], rfl, List.cons_ne_nil c [], by simp⟩
      · obtain ⟨hlinked, rest, hrest, -, hk⟩ := ih hq
        exact ⟨hlinked, c :: rest, by simpa using hrest, List.cons_ne_nil c rest, by simpa using hk⟩
    · cases hq

theorem mem_below (hclosed : ∀ q c, linked (q ++ [c]) → linked q) (hall : ∀ c, c ∈ letters) :
    q ∈ below letters linked k pre ↔
      linked q ∧ ∃ rest, q = pre ++ rest ∧ rest ≠ [] ∧ rest.length ≤ k := by
  refine ⟨exists_of_mem_below, ?_⟩
  rintro ⟨hq, rest, rfl, hne, hk⟩
  induction k generalizing pre rest with
  | zero => exact absurd (List.length_eq_zero_iff.mp (Nat.le_zero.mp hk)) hne
  | succ k ih =>
    obtain ⟨c, rest, rfl⟩ := List.exists_cons_of_ne_nil hne
    have hq' : linked (pre ++ [c] ++ rest) := by simpa using hq
    refine List.mem_flatMap.mpr ⟨c, hall c, ?_⟩
    rw [if_pos (linked_of_append hclosed hq'), List.mem_cons]
    by_cases hrest : rest = []
    · exact .inl (by rw [hrest])
    · exact .inr (by simpa using ih rest hq' hrest (by simpa using hk))

theorem extends_child {c : κ} (h : q ∈ (pre ++ [c]) :: below letters linked k (pre ++ [c])) :
    ∃ rest, q = pre ++ c :: rest := by
  rcases List.mem_cons.mp h with rfl | h
  · exact ⟨[], rfl⟩
  · obtain ⟨-, rest, rfl, -⟩ := exists_of_mem_below h
    exact ⟨rest, by simp⟩

/-- Depth first is lexicographic order. -/
theorem sorted_below [LT κ] (hsorted : letters.Pairwise (· < ·)) :
    (below letters linked k pre).Pairwise (List.Lex (· < ·)) := by
  induction k generalizing pre with
  | zero => exact .nil
  | succ k ih =>
    refine List.pairwise_flatMap.mpr ⟨fun c _ => ?_, hsorted.imp fun {c d} hcd q hq q' hq' => ?_⟩
    · split
      · refine List.pairwise_cons.mpr ⟨fun q hq => ?_, ih⟩
        obtain ⟨-, rest, rfl, hne, -⟩ := exists_of_mem_below hq
        obtain ⟨d, rest, rfl⟩ := List.exists_cons_of_ne_nil hne
        simpa using List.Lex.append_left (· < ·) (.nil : List.Lex (· < ·) [] (d :: rest)) (pre ++ [c])
      · exact .nil
    · split at hq
      · split at hq'
        · obtain ⟨r, rfl⟩ := extends_child hq
          obtain ⟨r', rfl⟩ := extends_child hq'
          exact List.Lex.append_left _ (.rel hcd) pre
        · cases hq'
      · cases hq

theorem nodup_below [LinearOrder κ] (hsorted : letters.Pairwise (· < ·)) :
    (below letters linked k pre).Nodup :=
  (sorted_below hsorted).imp fun h => (h.imp fun _ _ => ne_of_lt).to_ne

variable {α β : Type} {r : α → α → Prop}

theorem lex_of_map {s : β → β → Prop} {f : α → β} (hinj : Function.Injective f)
    (hf : ∀ x y, s (f x) (f y) → r x y) {xs ys : List α}
    (h : List.Lex s (xs.map f) (ys.map f)) : List.Lex r xs ys := by
  induction xs generalizing ys with
  | nil =>
    cases ys with
    | nil => exact absurd h List.not_lex_nil
    | cons y ys => exact .nil
  | cons x xs ih =>
    cases ys with
    | nil => exact absurd h List.not_lex_nil
    | cons y ys =>
      simp only [List.map_cons, List.cons_lex_cons_iff] at h ⊢
      exact h.imp (hf x y) fun h => ⟨hinj h.1, ih h.2⟩

/-- Padding behind lists of one length does not order them. -/
theorem lex_of_append (hr : ∀ x, ¬r x x) {xs ys zs : List α} (hlen : xs.length = ys.length)
    (h : List.Lex r (xs ++ zs) (ys ++ zs)) : List.Lex r xs ys := by
  induction xs generalizing ys with
  | nil =>
    obtain rfl := List.length_eq_zero_iff.mp hlen.symm
    exact absurd h (List.lex_irrefl hr zs)
  | cons x xs ih =>
    cases ys with
    | nil => simp at hlen
    | cons y ys =>
      simp only [List.cons_append, List.cons_lex_cons_iff] at h ⊢
      exact h.imp_right fun h => ⟨h.1, ih (by simpa using hlen) h.2⟩

end Chton.PrefixTreeTraversals
