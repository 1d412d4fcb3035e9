import Chton.EntitySimulations

/-!
# Filtering by coordinates

`axis_filtered` walks one subtree when its checks name the axes 0, 1, 2, … in order, and
scans all entries otherwise. On either side it returns the values of the entries that
satisfy every check, whatever the checks are.
-/

namespace Chton.AxisFilters
open OutcomePrograms TreeStrategyProgram StringKeys EntityStores EntitySimulations

/-- A coordinate space that can walk the subtree of a path prefix. -/
class PrefixSpace (S : Type) (N : outParam ℕ) (V : outParam Type) extends CoordSpace S N V where
  iterPrefix : S → List Coord → Option (List (CoordPath N × V))

/-- The coordinate at an axis must have a value. -/
abbrev AxisCheck := ℕ × UInt16

/-- `Coord::index`. -/
def index (c : Coord) : UInt16 := UInt16.ofNat c.val

/-- The loop that measures how far the checks follow the axes `i`, `i + 1`, …. -/
def prefixLenFrom (i prefixLen : ℕ) : List AxisCheck → ℕ
  | [] => prefixLen
  | check :: rest =>
    if check.1 = i then prefixLenFrom (i + 1) (i + 1) rest else prefixLen

/-- `contiguous_prefix`. -/
def contiguousPrefix (axisChecks : List AxisCheck) : Option ℕ :=
  let prefixLen := prefixLenFrom 0 0 axisChecks
  if prefixLen > 0 ∧ prefixLen = axisChecks.length then some prefixLen else none

variable {S V : Type} {N : ℕ}

/-- The checks of the scan on one entry; a check that fails goes on with the next entry. -/
def passes (path : CoordPath N) : List AxisCheck → Bool
  | [] => true
  | check :: rest =>
    if h : check.1 < N then
      if index (path.coords.get ⟨check.1, path.length_coords.symm ▸ h⟩) ≠ check.2 then false
      else passes path rest
    else false

/-- The entries under the prefix that the first checks make. -/
def subtreeValues [PrefixSpace S N V] (space : S) (axisChecks : List AxisCheck) (prefixLen : ℕ) :
    List V :=
  match (axisChecks.take prefixLen).mapM fun check => newCoord check.2 with
  | none => []
  | some prefixCoords =>
    match PrefixSpace.iterPrefix space prefixCoords with
    | some entries => entries.map Prod.snd
    | none => []

def scanValues [PrefixSpace S N V] (space : S) (axisChecks : List AxisCheck) : List V :=
  ((CoordSpace.iterTree space).filter fun e => passes e.1 axisChecks).map Prod.snd

def axisFiltered [PrefixSpace S N V] (axisChecks : List AxisCheck) : EntityProgram S (List V) := do
  let space ← get
  match contiguousPrefix axisChecks with
  | some prefixLen => pure (subtreeValues space axisChecks prefixLen)
  | none => pure (scanValues space axisChecks)

structure Traversals (S : Type) {N : ℕ} {V : Type} [PrefixSpace S N V] : Prop where
  nodup : ∀ s : S, ((CoordSpace.iterTree s).map Prod.fst).Nodup
  mem : ∀ (s : S) p v, (p, v) ∈ CoordSpace.iterTree s ↔ CoordSpace.atPath s p = some v
  prefixNodup : ∀ {s : S} {pre es}, PrefixSpace.iterPrefix s pre = some es →
    (es.map Prod.fst).Nodup
  prefixMem : ∀ {s : S} {pre es}, PrefixSpace.iterPrefix s pre = some es →
    ∀ p v, (p, v) ∈ es ↔ CoordSpace.atPath s p = some v ∧ pre <+: p.coords
  prefixNone : ∀ {s : S} {pre}, PrefixSpace.iterPrefix s pre = none →
    ∀ p v, CoordSpace.atPath s p = some v → ¬pre <+: p.coords

def Satisfies (path : CoordPath N) (check : AxisCheck) : Prop :=
  path.coords[check.1]?.map Fin.val = some check.2.toNat

instance (path : CoordPath N) (check : AxisCheck) : Decidable (Satisfies path check) :=
  inferInstanceAs (Decidable (_ = _))

variable {path : CoordPath N} {check : AxisCheck} {checks : List AxisCheck} {pre : List Coord}
variable {i : ℕ}

theorem not_satisfies_of_axis (h : N ≤ check.1) : ¬Satisfies path check := by
  have hlen := path.length_coords
  simp [Satisfies, List.getElem?_eq_none (by omega : path.coords.length ≤ check.1)]

theorem not_satisfies_of_value (h : nValid ≤ check.2.toNat) : ¬Satisfies path check := by
  intro hsat
  obtain ⟨c, -, hc⟩ := Option.map_eq_some_iff.mp hsat
  have := c.isLt
  omega

theorem index_eq_iff {c : Coord} {value : UInt16} : index c = value ↔ c.val = value.toNat := by
  have hc : c.val < 2 ^ 16 := Nat.lt_trans c.isLt (by decide)
  constructor
  · intro h
    rw [← h, index, toNat_marker hc]
  · intro h
    rw [index, h, UInt16.ofNat_toNat]

theorem passes_iff : passes path checks = true ↔ ∀ check ∈ checks, Satisfies path check := by
  induction checks with
  | nil => simp [passes]
  | cons check rest ih =>
    rw [passes, List.forall_mem_cons]
    have hlen := path.length_coords
    by_cases haxis : check.1 < N
    · have hlt : check.1 < path.coords.length := by omega
      have hsat : Satisfies path check ↔ index path.coords[check.1] = check.2 := by
        simp [Satisfies, index_eq_iff, hlt]
      rw [dif_pos haxis, List.get_eq_getElem, hsat, ← ih]
      by_cases hval : index path.coords[check.1] = check.2
      · simp [hval]
      · simp [hval]
    · have hnot : ¬Satisfies path check := not_satisfies_of_axis (by omega)
      simp [haxis, hnot]

/-- The checks are on the axes `i`, `i + 1`, …. -/
def Covers (i : ℕ) : List AxisCheck → Prop
  | [] => True
  | check :: rest => check.1 = i ∧ Covers (i + 1) rest

theorem prefixLenFrom_eq_iff : prefixLenFrom i i checks = i + checks.length ↔ Covers i checks := by
  induction checks generalizing i with
  | nil => simp [prefixLenFrom, Covers]
  | cons check rest ih =>
    rw [prefixLenFrom, Covers, List.length_cons]
    by_cases haxis : check.1 = i
    · rw [if_pos haxis, ← ih]
      simp [haxis, Nat.add_assoc, Nat.add_comm 1]
    · simp [haxis]

theorem contiguousPrefix_some {k : ℕ} (h : contiguousPrefix checks = some k) :
    k = checks.length ∧ Covers 0 checks := by
  rw [contiguousPrefix] at h
  split at h
  · obtain ⟨-, hlen⟩ := ‹_ ∧ _›
    cases h
    exact ⟨hlen, prefixLenFrom_eq_iff.mp (by simpa using hlen)⟩
  · cases h

theorem newCoord_val {value : UInt16} {c : Coord} (h : newCoord value = some c) :
    c.val = value.toNat := by
  rw [newCoord] at h
  split at h
  · cases h
    rfl
  · cases h

/-- The prefix made of the values of the checks is the prefix of the paths that satisfy them. -/
theorem prefix_iff (hcovers : Covers i checks)
    (hpre : (checks.mapM fun check => newCoord check.2) = some pre) :
    pre <+: path.coords.drop i ↔ ∀ check ∈ checks, Satisfies path check := by
  induction checks generalizing i pre with
  | nil =>
    cases hpre
    simp
  | cons check rest ih =>
    obtain ⟨haxis, hrest⟩ := hcovers
    rw [List.mapM_cons] at hpre
    obtain ⟨c, hc, hpre⟩ := Option.bind_eq_some_iff.mp hpre
    obtain ⟨tail, htail, hpre⟩ := Option.bind_eq_some_iff.mp hpre
    cases hpre
    rw [List.forall_mem_cons, ← ih hrest htail]
    by_cases hi : i < path.coords.length
    · have hsat : Satisfies path check ↔ c = path.coords[i] := by
        rw [Satisfies, haxis, List.getElem?_eq_getElem hi, Option.map_some, Option.some.injEq,
          ← newCoord_val hc, Fin.val_inj, eq_comm]
      rw [List.drop_eq_getElem_cons hi, List.cons_prefix_cons, hsat]
    · have hlen := path.length_coords
      have hnot : ¬Satisfies path check := not_satisfies_of_axis (by omega)
      simp [List.drop_eq_nil_of_le (by omega : path.coords.length ≤ i), hnot]

/-- Without such a prefix one value is out of range. -/
theorem exists_value_of_none (hpre : (checks.mapM fun check => newCoord check.2) = none) :
    ∃ check ∈ checks, nValid ≤ check.2.toNat := by
  induction checks with
  | nil => cases hpre
  | cons check rest ih =>
    rw [List.mapM_cons] at hpre
    by_cases hval : check.2.toNat < nValid
    · rw [newCoord_of_lt hval] at hpre
      cases hrest : rest.mapM fun check => newCoord check.2 with
      | none =>
        obtain ⟨late, hmem, hlate⟩ := ih hrest
        exact ⟨late, List.mem_cons_of_mem _ hmem, hlate⟩
      | some tail =>
        rw [hrest] at hpre
        cases hpre
    · exact ⟨check, List.mem_cons_self, Nat.le_of_not_lt hval⟩

variable [PrefixSpace S N V] {space : S} {entries : Multiset (CoordPath N × V)}

structure EntriesOf (space : S) (entries : Multiset (CoordPath N × V)) : Prop where
  nodup : entries.Nodup
  mem : ∀ p v, (p, v) ∈ entries ↔ CoordSpace.atPath space p = some v

/-- The values of the entries that satisfy every check. -/
def selected (entries : Multiset (CoordPath N × V)) (checks : List AxisCheck) : Multiset V :=
  (entries.filter fun e => ∀ check ∈ checks, Satisfies e.1 check).map Prod.snd

theorem selected_of_mem (he : EntriesOf space entries) {es : List (CoordPath N × V)}
    (hnodup : (es.map Prod.fst).Nodup)
    (hmem : ∀ p v, (p, v) ∈ es ↔
      CoordSpace.atPath space p = some v ∧ ∀ check ∈ checks, Satisfies p check) :
    (es.map Prod.snd : Multiset V) = selected entries checks := by
  have heq : (es : Multiset (CoordPath N × V)) =
      entries.filter fun e => ∀ check ∈ checks, Satisfies e.1 check := by
    have hes : (es : Multiset (CoordPath N × V)).Nodup := Multiset.coe_nodup.mpr (hnodup.of_map _)
    apply (Multiset.Nodup.ext hes (he.nodup.filter _)).mpr
    intro e
    rw [Multiset.mem_coe, Multiset.mem_filter, he.mem, hmem]
  rw [selected, ← heq, Multiset.map_coe]

theorem scan_selects (hspace : Traversals S) (he : EntriesOf space entries) :
    (scanValues space checks : Multiset V) = selected entries checks := by
  apply selected_of_mem he
  · exact (hspace.nodup space).sublist ((List.filter_sublist).map _)
  · intro p v
    rw [List.mem_filter, hspace.mem, passes_iff]

theorem none_selected (he : EntriesOf space entries)
    (hnone : ∀ p v, CoordSpace.atPath space p = some v → ¬∀ check ∈ checks, Satisfies p check) :
    (([] : List V) : Multiset V) = selected entries checks := by
  have hmem (p : CoordPath N) (v : V) : (p, v) ∈ ([] : List (CoordPath N × V)) ↔
      CoordSpace.atPath space p = some v ∧ ∀ check ∈ checks, Satisfies p check := by
    constructor
    · intro h
      cases h
    · intro h
      exact absurd h.2 (hnone p v h.1)
  exact selected_of_mem he (by simp) hmem

theorem subtree_selects (hspace : Traversals S) (he : EntriesOf space entries)
    (hcovers : Covers 0 checks) :
    (subtreeValues space checks checks.length : Multiset V) = selected entries checks := by
  rw [subtreeValues, List.take_length]
  cases hpre : checks.mapM fun check => newCoord check.2 with
  | none =>
    obtain ⟨check, hmem, hval⟩ := exists_value_of_none hpre
    apply none_selected he
    exact fun p v _ hall => not_satisfies_of_value hval (hall check hmem)
  | some pre =>
    have hbelow (p : CoordPath N) : pre <+: p.coords ↔ ∀ check ∈ checks, Satisfies p check :=
      prefix_iff hcovers hpre
    cases hiter : PrefixSpace.iterPrefix space pre with
    | none =>
      simp only [hiter]
      apply none_selected he
      exact fun p v hp hall => hspace.prefixNone hiter p v hp ((hbelow p).mpr hall)
    | some es =>
      simp only [hiter]
      apply selected_of_mem he (hspace.prefixNodup hiter)
      intro p v
      rw [hspace.prefixMem hiter, hbelow]

/-- On both sides of the decision, `axis_filtered` returns what satisfies every check. -/
theorem axis_filtered_selects (hspace : Traversals S) (he : EntriesOf space entries)
    (checks : List AxisCheck) :
    ∃ out : List V, axisFiltered checks space = .ok out space ∧
      (out : Multiset V) = selected entries checks := by
  cases hk : contiguousPrefix checks with
  | none =>
    refine ⟨scanValues space checks, ?_, scan_selects hspace he⟩
    simp only [axisFiltered, hk]
    rfl
  | some k =>
    obtain ⟨rfl, hcovers⟩ := contiguousPrefix_some hk
    refine ⟨subtreeValues space checks checks.length, ?_, subtree_selects hspace he hcovers⟩
    simp only [axisFiltered, hk]
    rfl

theorem entriesOf_iterTree (hspace : Traversals S) (space : S) :
    EntriesOf space (CoordSpace.iterTree space : Multiset (CoordPath N × V)) :=
  ⟨Multiset.coe_nodup.mpr ((hspace.nodup space).of_map _), hspace.mem space⟩

def subtree (s : AList fun _ : CoordPath N => V) (pre : List Coord) : List (CoordPath N × V) :=
  (CoordSpace.iterTree s).filter fun e => pre.isPrefixOf e.1.coords

instance : PrefixSpace (AList fun _ : CoordPath N => V) N V where
  iterPrefix s pre := if (subtree s pre).isEmpty then none else some (subtree s pre)

theorem mem_subtree {s : AList fun _ : CoordPath N => V} {p : CoordPath N} {v : V} :
    (p, v) ∈ subtree s pre ↔ CoordSpace.atPath s p = some v ∧ pre <+: p.coords := by
  simp [subtree, alist_finiteMapSpace.mem]

theorem iterPrefix_cases (s : AList fun _ : CoordPath N => V) (pre : List Coord) :
    (subtree s pre = [] ∧ PrefixSpace.iterPrefix s pre = none) ∨
      PrefixSpace.iterPrefix s pre = some (subtree s pre) := by
  change (_ ∧ (if (subtree s pre).isEmpty then none else some (subtree s pre)) = none) ∨
    (if (subtree s pre).isEmpty then none else some (subtree s pre)) = _
  cases hempty : subtree s pre with
  | nil => exact .inl ⟨rfl, rfl⟩
  | cons e rest => exact .inr rfl

theorem alist_traversals : Traversals (AList fun _ : CoordPath N => V) where
  nodup := alist_finiteMapSpace.nodup
  mem := alist_finiteMapSpace.mem
  prefixNodup {s pre es} h := by
    rcases iterPrefix_cases s pre with ⟨-, hnone⟩ | hsome
    · simp [hnone] at h
    · obtain rfl : subtree s pre = es := by simpa [hsome] using h
      exact (alist_finiteMapSpace.nodup s).sublist ((List.filter_sublist).map _)
  prefixMem {s pre es} h p v := by
    rcases iterPrefix_cases s pre with ⟨-, hnone⟩ | hsome
    · simp [hnone] at h
    · obtain rfl : subtree s pre = es := by simpa [hsome] using h
      exact mem_subtree
  prefixNone {s pre} h p v hp hpre := by
    rcases iterPrefix_cases s pre with ⟨hempty, -⟩ | hsome
    · have hmem := mem_subtree.mpr ⟨hp, hpre⟩
      simp [hempty] at hmem
    · simp [hsome] at h

/-- Two entries below one first coordinate; the checks cover both axes and walk the subtree. -/
theorem axis_filtered_selects_pair :
    ∃ out : List UInt8,
      axisFiltered [(0, 5), (1, 9)]
        (((∅ : AList fun _ : CoordPath 2 => UInt8).insert ⟨[5, 6], rfl⟩ 1).insert ⟨[5, 9], rfl⟩ 2) =
        .ok out
          (((∅ : AList fun _ : CoordPath 2 => UInt8).insert ⟨[5, 6], rfl⟩ 1).insert ⟨[5, 9], rfl⟩ 2) ∧
      (out : Multiset UInt8) = {2} := by
  obtain ⟨out, hrun, hout⟩ := axis_filtered_selects alist_traversals
    (entriesOf_iterTree alist_traversals
      (((∅ : AList fun _ : CoordPath 2 => UInt8).insert ⟨[5, 6], rfl⟩ 1).insert ⟨[5, 9], rfl⟩ 2))
    [(0, 5), (1, 9)]
  exact ⟨out, hrun, hout.trans (by decide)⟩

end Chton.AxisFilters
