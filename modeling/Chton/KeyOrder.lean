import Chton.EnumerationAgreement
import Chton.KeyDigits

/-!
# General keys in byte order

Keys of one length outside the canonical format compare byte by byte as their paths do
coordinate by coordinate: on both sides the leading digit decides, and both numerals have
the same number.
-/

namespace Chton.KeyOrder
open OutcomePrograms CallRuns TextBytes Origins TreeStrategyProgram CoordMapProgram PlaceValues
open StringKeys StoreRuns EnumerationAgreement

variable {fromChar : Char → Option Coord} {M : ℕ} {a b : String} {p q : CoordPath M}

theorem compareLex_map {α : Type} [Ord α] {f : α → ℕ} (hf : ∀ x y, compare x y = compare (f x) (f y))
    (xs ys : List α) :
    compare xs ys = List.compareLex compare (xs.map f) (ys.map f) := by
  change List.compareLex compare xs ys = _
  induction xs generalizing ys with
  | nil => cases ys <;> rfl
  | cons x xs ih =>
    cases ys with
    | nil => rfl
    | cons y ys =>
      rw [List.map_cons, List.map_cons, List.compareLex_cons_cons, List.compareLex_cons_cons, ih, hf]

theorem compare_bytes {xs ys : List UInt8} (hlen : xs.length = ys.length) :
    compare xs ys = compare (number xs) (number ys) := by
  have hbyte : ∀ x y : UInt8, compare x y = compare x.toNat y.toNat := by
    intro x y
    change compareOfLessAndEq x y = compareOfLessAndEq x.toNat y.toNat
    simp only [compareOfLessAndEq, UInt8.lt_iff_toNat_lt, UInt8.toNat_inj]
  have hlt : ∀ (zs : List UInt8), ∀ z ∈ zs.map UInt8.toNat, z < 256 := by
    intro zs z hz
    obtain ⟨x, -, rfl⟩ := List.mem_map.mp hz
    exact x.toNat_lt
  rw [compareLex_map hbyte]
  apply compareLex_eq _ (hlt xs) (hlt ys)
  rw [List.length_map, List.length_map, hlen]

theorem compare_paths (p q : CoordPath M) : compare p.coords q.coords =
    compare (value nValid (p.coords.map Fin.val)) (value nValid (q.coords.map Fin.val)) := by
  have hlt : ∀ (cs : List Coord), ∀ c ∈ cs.map Fin.val, c < nValid := by
    intro cs c hc
    obtain ⟨x, -, rfl⟩ := List.mem_map.mp hc
    exact x.isLt
  rw [compareLex_map (f := Fin.val) fun _ _ => rfl]
  apply compareLex_eq _ (hlt _) (hlt _)
  rw [List.length_map, List.length_map, p.length_coords, q.length_coords]

/-- The path of a general key is its number, with the length as one more digit. -/
theorem value_path (hM : 2 ≤ M) (ha : strToCoordpath fromChar M a = .ok p)
    (hgeneral : ¬Canonical fromChar M a) :
    value nValid (p.coords.map Fin.val) = number (asBytes a) * nValid + (asBytes a).length := by
  obtain ⟨payload, marker, hmarked, hcases⟩ := path_spec hM ha
  rcases hcases with ⟨hcanonical, -⟩ | ⟨-, hmarker, -, hvalue⟩
  · exact absurd hcanonical hgeneral
  · rw [hmarked.coords, List.map_append, List.map_singleton, value_concat, hmarker]
    exact congrArg (· * nValid + (asBytes a).length) hvalue

theorem compare_keys (hM : 2 ≤ M) (ha : strToCoordpath fromChar M a = .ok p)
    (hb : strToCoordpath fromChar M b = .ok q) (hgeneral : ¬Canonical fromChar M a)
    (hgeneral' : ¬Canonical fromChar M b) (hlen : (asBytes a).length = (asBytes b).length) :
    compare (asBytes a) (asBytes b) = compare p.coords q.coords := by
  have hpos : 0 < nValid := by decide
  rw [compare_bytes hlen, compare_paths, value_path hM ha hgeneral, value_path hM hb hgeneral', hlen]
  apply compare_congr
  · rw [Nat.add_lt_add_iff_right, Nat.mul_lt_mul_right hpos]
  · rw [Nat.add_lt_add_iff_right, Nat.mul_lt_mul_right hpos]

theorem compare_of_lex {xs ys : List Coord} (h : List.Lex (· < ·) xs ys) : compare xs ys = .lt := by
  change List.compareLex compare xs ys = _
  induction h with
  | nil => rfl
  | cons _ ih =>
    rw [List.compareLex_cons_cons, ih]
    exact congrArg (fun c => Ordering.then c .lt) (Nat.compare_eq_eq.mpr rfl)
  | rel h =>
    rw [List.compareLex_cons_cons]
    exact congrArg (fun c => Ordering.then c _) (Nat.compare_eq_lt.mpr h)

/-- The keys of one length that are not canonical come in byte order. -/
def InByteOrder (fromChar : Char → Option Coord) (p q : CoordPath M) : Prop :=
  ∀ a b, strToCoordpath fromChar M a = .ok p → strToCoordpath fromChar M b = .ok q →
    ¬Canonical fromChar M a → ¬Canonical fromChar M b → (asBytes a).length = (asBytes b).length →
      compare (asBytes a) (asBytes b) = .lt

/-- Byte order and coordinate order agree on general keys of one length, and the walk over a
store, in any state that a run reaches, meets them in that order. -/
theorem general_keys_keep_order (fromChar : Char → Option Coord) (hM : 2 ≤ M)
    (hM' : M ≤ maxStoreDepth) :
    (∀ a b p q, strToCoordpath fromChar M a = .ok p → strToCoordpath fromChar M b = .ok q →
      ¬Canonical fromChar M a → ¬Canonical fromChar M b →
      (asBytes a).length = (asBytes b).length →
        compare (asBytes a) (asBytes b) = compare p.coords q.coords) ∧
    ∀ (σ : Type) [ByteOrigin σ], NeverFails σ → ∀ o : σ, ByteOrigin.bytes o = [] →
      ∀ d : SlotSize, ∃ st : CoordMapStore 64 M σ, CoordMapStore.new o d.val = .ok st ∧
        ∀ xs : List (Step M), ∃ found,
          (answer iter (run Step.perform xs st).2.mount).1 = .ok found ∧
            found.Pairwise fun e e' => InByteOrder fromChar e.1 e'.1 := by
  constructor
  · exact fun a b p q ha hb hgeneral hgeneral' hlen =>
      compare_keys hM ha hb hgeneral hgeneral' hlen
  · intro σ _ hfail o ho d
    have hpos : 0 < M := Nat.lt_of_lt_of_le Nat.two_pos hM
    obtain ⟨st, hnew, hst, -⟩ := refines_new ho hpos d
    refine ⟨st, hnew, fun xs => ?_⟩
    obtain ⟨-, hfinal⟩ := run_steps hfail hpos hM' hst xs
    have hagrees := agrees_of_refines hfail hpos hfinal
    refine ⟨_, hagrees.iter, hagrees.ascending.imp ?_⟩
    intro e e' hlex a b ha hb hgeneral hgeneral' hlen
    rw [compare_keys hM ha hb hgeneral hgeneral' hlen]
    exact compare_of_lex hlex

/-- At depth 3 the keys "ab" and "ac" have paths, and those are in order. -/
theorem general_keys_keep_order_hangul : ∃ p q : CoordPath 3,
    strToCoordpath hangul 3 "ab" = .ok p ∧ strToCoordpath hangul 3 "ac" = .ok q ∧
      compare (asBytes "ab") (asBytes "ac") = compare p.coords q.coords := by
  have hp : strToCoordpath hangul 3 "ab" = .ok ⟨[2, 2586, 2], rfl⟩ := by decide +kernel
  have hq : strToCoordpath hangul 3 "ac" = .ok ⟨[2, 2587, 2], rfl⟩ := by decide +kernel
  have horder := (general_keys_keep_order hangul (M := 3) (by decide) (by decide)).1
  refine ⟨_, _, hp, hq, horder _ _ _ _ hp hq ?_ ?_ ?_⟩ <;> decide +kernel

end Chton.KeyOrder
