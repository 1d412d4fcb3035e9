import Chton.AxisFilters
import Chton.EntityRefusals

/-!
# Spatial queries on string keys

Next to the operations of an entity store, `CoordEntityStore` filters its values by a predicate,
by coordinates, and by a predicate below a prefix of coordinates. Seen through the paths of the
keys, these are queries on the hash map that the store stands for, in every run.
-/

namespace Chton.SpatialQueries
open OutcomePrograms CallRuns TreeStrategyProgram StringKeys KeyedMaps EntityStores EntityReference
open EntitySimulations EntityRefusals AxisFilters

variable {P S V : Type} {N : ℕ}

/-- A predicate on values that may remember what it was asked. -/
abbrev Predicate (P V : Type) := V → P → Bool × P

/-- The body of the loops over entries: the results so far, and what the predicate remembers. -/
def visit (predicate : Predicate P V) (found : List V × P) (v : V) : List V × P :=
  if (predicate v found.2).1 then (found.1 ++ [v], (predicate v found.2).2)
  else (found.1, (predicate v found.2).2)

def collect (predicate : Predicate P V) (p : P) (values : List V) : List V × P :=
  values.foldl (visit predicate) ([], p)

def iterFiltered [CoordSpace S N V] (predicate : Predicate P V) (p : P) :
    EntityProgram S (List V × P) := do
  let space ← get
  pure (collect predicate p ((CoordSpace.iterTree space).map Prod.snd))

/-- The predicate is not asked when the space has no such prefix. -/
def collectBelow (predicate : Predicate P V) (p : P) :
    Option (List (CoordPath N × V)) → Option (List V) × P
  | none => (none, p)
  | some entries => ((collect predicate p (entries.map Prod.snd)).map some id)

def iterPrefixFiltered [PrefixSpace S N V] (pre : List Coord) (predicate : Predicate P V) (p : P) :
    EntityProgram S (Option (List V) × P) := do
  let space ← get
  pure (collectBelow predicate p (PrefixSpace.iterPrefix space pre))

inductive SpatialCall (P V : Type) where
  | entity (c : EntityCall V)
  | iterFiltered (predicate : Predicate P V) (p : P)
  | axisFiltered (checks : List AxisCheck)
  | iterPrefixFiltered (pre : List Coord) (predicate : Predicate P V) (p : P)

inductive SpatialReply (P V : Type) where
  | entity (r : EntityReply V)
  | filtered (r : Except EntityPanic (List V × P))
  | selected (r : Except EntityPanic (List V))
  | below (r : Except EntityPanic (Option (List V) × P))

variable {fromChar : Char → Option Coord}

def SpatialCall.perform [PrefixSpace S N V] (fromChar : Char → Option Coord)
    (c : SpatialCall P V) (s : S) : SpatialReply P V × S :=
  match c with
  | .entity c => (EntityCall.perform (coordEntityStore S fromChar) c s).map .entity id
  | .iterFiltered predicate p => (answer (SpatialQueries.iterFiltered predicate p) s).map .filtered id
  | .axisFiltered checks => (answer (AxisFilters.axisFiltered checks) s).map .selected id
  | .iterPrefixFiltered pre predicate p =>
    (answer (SpatialQueries.iterPrefixFiltered pre predicate p) s).map .below id

def valuesIn (fromChar : Char → Option Coord) (region : CoordPath N → Bool) (map : HashMap V) :
    Multiset V :=
  (map.entries.filter fun e => (placeOf fromChar N e.1).any region).map Sigma.snd

/-- What the hash map answers and becomes. -/
inductive Seen (fromChar : Char → Option Coord) (N : ℕ) :
    HashMap V → SpatialCall P V × SpatialReply P V → HashMap V → Prop
  | entity {c : EntityCall V} {r : EntityReply V} {t t' : Ledger V}
    (h : Serves (coordLimits V fromChar N) t (c, r) t') :
    Seen fromChar N t.map (.entity c, .entity r) t'.map
  /-- The predicate is asked about every value once, in some order. -/
  | filtered {predicate : Predicate P V} {p : P} {vs : List V} {map : HashMap V}
    (h : (vs : Multiset V) = map.entries.map Sigma.snd) :
    Seen fromChar N map (.iterFiltered predicate p, .filtered (.ok (collect predicate p vs))) map
  | selected {checks : List AxisCheck} {vs : List V} {map : HashMap V}
    (h : (vs : Multiset V) =
      valuesIn fromChar (fun path : CoordPath N => passes path checks) map) :
    Seen fromChar N map (.axisFiltered checks, .selected (.ok vs)) map
  | below {pre : List Coord} {predicate : Predicate P V} {p : P} {vs : List V} {map : HashMap V}
    (h : (vs : Multiset V) =
      valuesIn fromChar (fun path : CoordPath N => pre.isPrefixOf path.coords) map) :
    Seen fromChar N map (.iterPrefixFiltered pre predicate p,
      .below (.ok (some (collect predicate p vs).1, (collect predicate p vs).2))) map
  | nothing {pre : List Coord} {predicate : Predicate P V} {p : P} {map : HashMap V}
    (h : valuesIn fromChar (fun path : CoordPath N => pre.isPrefixOf path.coords) map = 0) :
    Seen fromChar N map (.iterPrefixFiltered pre predicate p, .below (.ok (none, p))) map

variable {map : HashMap V} {region : CoordPath N → Bool}

def lookupsIn (fromChar : Char → Option Coord) (region : CoordPath N → Bool) (map : HashMap V)
    (key : String) : Option V :=
  if (placeOf fromChar N key).any region then map.lookup key else none

theorem valuesIn_of_lists {ks : List String} (h : Lists (lookupsIn fromChar region map) ks) :
    valuesIn fromChar region map = (ks.filterMap (lookupsIn fromChar region map) : Multiset V) := by
  induction map using Finmap.induction_on with
  | H list =>
    let es := list.entries.filter fun e => (placeOf fromChar N e.1).any region
    have hlookup : ∀ e ∈ es, lookupsIn fromChar region list.toFinmap e.1 = some e.2 := by
      intro e he
      obtain ⟨hmem, hregion⟩ := List.mem_filter.mp he
      rw [lookupsIn, if_pos hregion, Finmap.lookup_toFinmap]
      exact AList.mem_lookup_iff.mpr hmem
    have hlists : Lists (lookupsIn fromChar region list.toFinmap) (es.map Sigma.fst) := by
      constructor
      · exact List.Nodup.sublist (List.filter_sublist.map _) list.nodupKeys
      · intro key
        rw [Option.ne_none_iff_exists']
        constructor
        · intro hkey
          obtain ⟨e, he, rfl⟩ := List.mem_map.mp hkey
          exact ⟨e.2, hlookup e he⟩
        · intro hkey
          obtain ⟨v, hv⟩ := hkey
          rw [lookupsIn, Option.ite_none_right_eq_some, Finmap.lookup_toFinmap] at hv
          have hmem := AList.mem_lookup_iff.mp hv.2
          exact List.mem_map.mpr ⟨⟨key, v⟩, List.mem_filter.mpr ⟨hmem, hv.1⟩, rfl⟩
    have hvalues : (es.map Sigma.fst).filterMap (lookupsIn fromChar region list.toFinmap) =
        es.map Sigma.snd := by
      rw [List.filterMap_map, ← List.filterMap_eq_map]
      exact List.filterMap_congr hlookup
    calc valuesIn fromChar region list.toFinmap
        = (es.map Sigma.snd : Multiset V) := by
          rw [valuesIn, AList.toFinmap_entries, Multiset.filter_coe, Multiset.map_coe]
          simp [es]
      _ = _ := by rw [← hvalues]
      _ = _ := Multiset.coe_eq_coe.mpr ((hlists.perm h).filterMap _)

section
variable [CoordSpace S N V] {space : S}

def atPathIn (region : CoordPath N → Bool) (space : S) (p : CoordPath N) : Option V :=
  if region p then CoordSpace.atPath space p else none

theorem encodes_region (h : Mirrors fromChar space map) (region : CoordPath N → Bool) :
    Encodes (placeOf fromChar N) (fun _ v => v) (atPathIn region space)
      (lookupsIn fromChar region map) where
  value key p hp := by
    by_cases hregion : region p
    · simpa [atPathIn, lookupsIn, lookups, hp, hregion] using h.value key p hp
    · simp [atPathIn, lookupsIn, hp, hregion]
  named p hp := by
    rw [atPathIn, Ne, ite_eq_right_iff, Classical.not_imp] at hp
    exact h.named p hp.2
  placed key hkey := by
    rw [lookupsIn, Ne, ite_eq_right_iff, Classical.not_imp] at hkey
    exact h.placed key hkey.2

/-- A list of the entries in the region has the values of the keys there. -/
theorem values_region (hapart : Apart (placeOf fromChar N)) (h : Mirrors fromChar space map)
    {es : List (CoordPath N × V)} (hnodup : (es.map Prod.fst).Nodup)
    (hmem : ∀ p v, (p, v) ∈ es ↔ CoordSpace.atPath space p = some v ∧ region p) :
    (es.map Prod.snd : Multiset V) = valuesIn fromChar region map := by
  have hat : ∀ p v, (p, v) ∈ es ↔ atPathIn region space p = some v := by
    intro p v
    rw [hmem, atPathIn, Option.ite_none_right_eq_some, and_comm]
  have hlists : Lists (atPathIn region space) (es.map Prod.fst) := by
    refine ⟨hnodup, fun p => ?_⟩
    rw [Option.ne_none_iff_exists']
    simp [← hat]
  obtain ⟨ks, hks, hplaces⟩ := (encodes_region h region).names hapart hlists
  have hvalues : es.map Prod.snd = (es.map Prod.fst).filterMap (atPathIn region space) := by
    rw [List.filterMap_map, ← List.filterMap_eq_map]
    apply List.filterMap_congr
    intro e he
    exact ((hat e.1 e.2).mp he).symm
  rw [hvalues, (encodes_region h region).values hplaces, valuesIn_of_lists hks]
  simp only [Option.map_id']

end

variable [PrefixSpace S N V] {space : S}

theorem seen_entity (hspace : FiniteMapSpace S) (hN : 2 ≤ N) (hapart : Apart (placeOf fromChar N))
    (h : Mirrors fromChar space map) (c : EntityCall V) :
    ∃ map', Seen (P := P) fromChar N map (.entity c, ((SpatialCall.entity c).perform fromChar space).1)
        map' ∧
      Mirrors fromChar ((SpatialCall.entity (P := P) c).perform fromChar space).2 map' := by
  obtain ⟨t', hserves, hmirrors⟩ := coord_servesAll hspace hN hapart c space ⟨map, []⟩ h
  exact ⟨t'.map, .entity hserves, hmirrors⟩

theorem seen_iterFiltered (hspace : FiniteMapSpace S) (hapart : Apart (placeOf fromChar N))
    (h : Mirrors fromChar space map) (predicate : Predicate P V) (p : P) :
    Seen fromChar N map (.iterFiltered predicate p,
      ((SpatialCall.iterFiltered predicate p).perform fromChar space).1) map := by
  have hvalues := coord_allValues hspace hapart h
  rw [CoordEntityStore.allValues, ensures_bind, ensures_get, ensures_pure] at hvalues
  exact .filtered hvalues.1

theorem seen_axisFiltered (htraversals : Traversals S) (hapart : Apart (placeOf fromChar N))
    (h : Mirrors fromChar space map) (checks : List AxisCheck) :
    Seen fromChar N map (.axisFiltered checks,
      ((SpatialCall.axisFiltered (P := P) checks).perform fromChar space).1) map := by
  have hentries := entriesOf_iterTree htraversals space
  obtain ⟨out, hrun, hout⟩ := axis_filtered_selects htraversals hentries checks
  have hscan : (scanValues space checks : Multiset V) =
      valuesIn fromChar (fun path : CoordPath N => passes path checks) map := by
    apply values_region hapart h
    · exact (htraversals.nodup space).sublist (List.filter_sublist.map _)
    · intro p v
      rw [List.mem_filter, htraversals.mem]
  rw [SpatialCall.perform, answer_of_ok hrun]
  exact .selected (hout.trans ((scan_selects htraversals hentries).symm.trans hscan))

theorem seen_iterPrefixFiltered (htraversals : Traversals S) (hapart : Apart (placeOf fromChar N))
    (h : Mirrors fromChar space map) (pre : List Coord) (predicate : Predicate P V) (p : P) :
    Seen fromChar N map (.iterPrefixFiltered pre predicate p,
      ((SpatialCall.iterPrefixFiltered pre predicate p).perform fromChar space).1) map := by
  change Seen fromChar N map (_, .below (.ok
    (collectBelow predicate p (PrefixSpace.iterPrefix space pre)))) map
  cases hiter : PrefixSpace.iterPrefix space pre with
  | none =>
    have hnone : (([] : List (CoordPath N × V)).map Prod.snd : Multiset V) =
        valuesIn fromChar (fun path : CoordPath N => pre.isPrefixOf path.coords) map := by
      apply values_region hapart h
      · exact List.nodup_nil
      · intro q v
        simpa using htraversals.prefixNone hiter q v
    exact .nothing hnone.symm
  | some entries =>
    apply Seen.below
    apply values_region hapart h (htraversals.prefixNodup hiter)
    intro q v
    rw [htraversals.prefixMem hiter, List.isPrefixOf_iff_prefix]

/-- Every call is answered as the hash map answers it. -/
theorem seen_step (hspace : FiniteMapSpace S) (htraversals : Traversals S) (hN : 2 ≤ N)
    (hapart : Apart (placeOf fromChar N)) (c : SpatialCall P V) (space : S) (map : HashMap V)
    (h : Mirrors fromChar space map) :
    ∃ map', Seen fromChar N map (c, (c.perform fromChar space).1) map' ∧
      Mirrors fromChar (c.perform fromChar space).2 map' := by
  cases c with
  | entity c => exact seen_entity hspace hN hapart h c
  | iterFiltered predicate p => exact ⟨map, seen_iterFiltered hspace hapart h predicate p, h⟩
  | axisFiltered checks =>
    obtain ⟨out, hrun, -⟩ :=
      axis_filtered_selects htraversals (entriesOf_iterTree htraversals space) checks
    refine ⟨map, seen_axisFiltered htraversals hapart h checks, ?_⟩
    rw [SpatialCall.perform, answer_of_ok hrun]
    exact h
  | iterPrefixFiltered pre predicate p =>
    exact ⟨map, seen_iterPrefixFiltered htraversals hapart h pre predicate p, h⟩

/-- In every run, what a coordinate store answers, to queries as to other calls, is what a hash map
answers on the keys whose paths are asked for. -/
theorem queries_see_the_map (hspace : FiniteMapSpace S) (htraversals : Traversals S) (hN : 2 ≤ N)
    (hinj : ∀ c d x, fromChar c = some x → fromChar d = some x → c = d)
    (cs : List (SpatialCall P V)) :
    ∃ map, Allowed (Seen fromChar N) ∅
        (cs.zip (run (SpatialCall.perform fromChar) cs (CoordSpace.new : S)).1) map ∧
      Mirrors fromChar (run (SpatialCall.perform fromChar) cs (CoordSpace.new : S)).2 map :=
  allowed_of_run (seen_step hspace htraversals hN (places_apart hinj hN))
    (mirrors_empty hspace.new) cs

/-- A value is put in and asked for by the length of its key. -/
def putAndAsk : List (SpatialCall ℕ UInt8) := [.entity (.insert "a" 7), .axisFiltered [(1, 1)]]

theorem queries_see_the_map_bytes :
    ∃ map, Allowed (Seen hangul 2) ∅ (putAndAsk.zip (run (SpatialCall.perform hangul) putAndAsk
        (CoordSpace.new : AList fun _ : CoordPath 2 => UInt8)).1) map ∧
      Mirrors hangul (run (SpatialCall.perform hangul) putAndAsk
        (CoordSpace.new : AList fun _ : CoordPath 2 => UInt8)).2 map :=
  queries_see_the_map alist_finiteMapSpace alist_traversals (by decide) hangul_inj putAndAsk

end Chton.SpatialQueries
