import Chton.EntityRooms

/-!
# The entity stores agree

Started empty, the three stores give the same replies to every sequence of calls with
representable keys and values that fit a slot. The materialized map alone can run out of
addresses; it then panics, and its replies agree up to that call. That happens only when the
keys put since it was last emptied need more than `2 ^ 64` bytes.
-/

namespace Chton.EntityAgreement
open OutcomePrograms CallRuns ByteRegions Origins TreeStrategyProgram CoordMapProgram
open StoreLayouts StoreLayouts.Layout MapCalls StringKeys LayoutContents KeyedMaps StoreRuns
open AreaNeeds MapServices StoreSpans EntityStores EntityReference EntitySimulations EntityRooms

variable {V S σ : Type} {N : ℕ} {fromChar : Char → Option Coord} {codec : Codec V} {slot : ℕ}

/-- Inserted keys are representable, and inserted values fit a slot of the map. -/
def Admissible (fromChar : Char → Option Coord) (N : ℕ) (codec : Codec V) (slot : ℕ)
    (c : EntityCall V) : Prop :=
  ∀ e ∈ EntityCall.inserted c, placeOf fromChar N e.1 ≠ none ∧ Storable codec slot e.2

/-- The replies to a probe of a key that is in no store. -/
def ProbesAbsent (key : String) (c : EntityCall V) (r : EntityReply V) : Prop :=
  (c = .get key → r = .ok (.value none)) ∧ (c = .remove key → r = .ok (.value none)) ∧
    (c = .containsKey key → r = .ok (.flag false))

def takenBy (cs : List (EntityCall V)) : List String := cs.foldl EntityCall.taken []

theorem takenBy_concat (cs : List (EntityCall V)) (c : EntityCall V) :
    takenBy (cs ++ [c]) = EntityCall.taken (takenBy cs) c := List.foldl_concat _ _ _ _

/-- What the replies of the three stores to the calls `cs` have in common. -/
structure Interchangeable [CoordSpace S N V] [Origin σ] (fromChar : Char → Option Coord)
    (codec : Codec V) (slot : ℕ) (space : S) (st : CoordMapStore 64 N σ)
    (cs : List (EntityCall V)) : Prop where
  coord : (run (EntityCall.perform (coordEntityStore S fromChar)) cs space).1 =
    (run (EntityCall.perform (memoryEntityStore V)) cs ∅).1
  /-- The map agrees as long as it has not panicked. -/
  map : ∀ n, (∀ r ∈ (run (EntityCall.perform (mapEntityStore N σ fromChar codec)) cs st).1.take n,
      ∃ a, r = .ok a) →
    (run (EntityCall.perform (mapEntityStore N σ fromChar codec)) cs st).1.take n =
      (run (EntityCall.perform (memoryEntityStore V)) cs ∅).1.take n
  /-- The map panics only in an insertion, and only for lack of addresses: the panic names its
  bump pointer, and the keys put since it was last emptied need more than there is. -/
  panics : ∀ pre c post, cs = pre ++ c :: post → ∀ e s, c.perform (mapEntityStore N σ fromChar codec)
      (run (EntityCall.perform (mapEntityStore N σ fromChar codec)) pre st).2 = (.error e, s) →
    NoRoomPanic slot e s ∧ EntityCall.Inserts c ∧
      2 ^ 64 ≤ areaNeed slot (placesOf fromChar N (takenBy (pre ++ [c])))
  /-- As long as there is room for the keys put since it was last emptied, the map agrees. -/
  roomy : (∀ pre, pre <+: cs → areaNeed slot (placesOf fromChar N (takenBy pre)) < 2 ^ 64) →
    (run (EntityCall.perform (mapEntityStore N σ fromChar codec)) cs st).1 =
      (run (EntityCall.perform (memoryEntityStore V)) cs ∅).1
  /-- A key that is not representable is absent. -/
  absent : ∀ x ∈ cs.zip (run (EntityCall.perform (memoryEntityStore V)) cs ∅).1, ∀ key,
    placeOf fromChar N key = none → ProbesAbsent key x.1 x.2

def Placed (fromChar : Char → Option Coord) (N : ℕ) (map : HashMap V) : Prop :=
  ∀ key, placeOf fromChar N key = none → map.lookup key = none

theorem placed_insert {map : HashMap V} (h : Placed fromChar N map) {key : String}
    (hkey : placeOf fromChar N key ≠ none) (value : V) :
    Placed fromChar N (map.insert key value) := by
  intro key' hkey'
  have hne : key' ≠ key := by
    intro heq
    subst heq
    exact hkey hkey'
  rw [Finmap.lookup_insert_of_ne _ hne]
  exact h key' hkey'

theorem placed_onMap {map : HashMap V} (h : Placed fromChar N map) {c : EntityCall V}
    (hc : ∀ e ∈ EntityCall.inserted c, placeOf fromChar N e.1 ≠ none) :
    Placed fromChar N (EntityCall.onMap c map).2 := by
  cases c with
  | get key => exact h
  | insert key value => exact placed_insert h (hc _ List.mem_cons_self) value
  | remove key =>
    intro key' hkey'
    by_cases heq : key' = key
    · rw [heq]
      exact Finmap.lookup_erase key map
    · exact (Finmap.lookup_erase_ne heq).trans (h key' hkey')
  | containsKey key => exact h
  | len => exact h
  | values => exact h
  | clear => exact fun key _ => Finmap.lookup_empty key
  | replaceFrom entries =>
    intro key hkey
    refine (lookup_insertAll entries key).trans ?_
    rw [lastValue, Option.map_eq_none_iff, List.find?_eq_none]
    intro e he heq
    rw [decide_eq_true_iff] at heq
    exact hc e (List.mem_reverse.mp he) (heq ▸ hkey)

theorem memory_absent {cs : List (EntityCall V)} {map : HashMap V} (h : Placed fromChar N map)
    (hcs : ∀ c ∈ cs, ∀ e ∈ EntityCall.inserted c, placeOf fromChar N e.1 ≠ none) :
    ∀ x ∈ cs.zip (run (EntityCall.perform (memoryEntityStore V)) cs map).1, ∀ key,
      placeOf fromChar N key = none → ProbesAbsent key x.1 x.2 := by
  refine run_replies (I := Placed fromChar N) (P := fun c (r : EntityReply V) => ∀ key,
    placeOf fromChar N key = none → ProbesAbsent key c r) ?_ h
  intro c hc map h
  rw [memory_perform]
  refine ⟨?_, placed_onMap h (hcs c hc)⟩
  intro key hkey
  have hlookup := h key hkey
  refine ⟨?_, ?_, ?_⟩
  · intro heq
    rw [heq, EntityCall.onMap, hlookup]
  · intro heq
    rw [heq, EntityCall.onMap, hlookup]
  · intro heq
    rw [heq, EntityCall.onMap, hlookup]
    rfl

section
variable [ByteOrigin σ] {st : CoordMapStore 64 N σ}

def CarriesKeys (fromChar : Char → Option Coord) (codec : Codec V) (slot : ℕ) (keys : List String)
    (st : CoordMapStore 64 N σ) : Prop :=
  (∃ map : HashMap V, Carries fromChar codec slot st map) ∧
    Spans slot (placesOf fromChar N keys) st

theorem run_carries (hfail : NeverFails σ) (hcodec : RoundTrips codec) (hN : 2 ≤ N)
    (hapart : Apart (placeOf fromChar N)) (h : CarriesKeys fromChar codec slot [] st)
    {cs : List (EntityCall V)} (hcs : ∀ c ∈ cs, Admissible fromChar N codec slot c) :
    CarriesKeys fromChar codec slot (takenBy cs)
      (run (EntityCall.perform (mapEntityStore N σ fromChar codec)) cs st).2 := by
  induction cs using List.reverseRecOn with
  | nil => exact h
  | append_singleton cs c ih =>
    obtain ⟨⟨map, hcarries⟩, hspans⟩ := ih fun c hc => hcs c (List.mem_append_left _ hc)
    have hc := hcs c (List.mem_append_right _ List.mem_cons_self)
    rw [run_append, takenBy_concat, run_cons, run_nil, EntityCall.perform]
    rcases answer_cases (call_room hfail hcodec hN hapart hcarries hspans c hc) with
      ⟨a, s, hanswer, ⟨-, hcarries'⟩, hspans'⟩ | ⟨e, s, hanswer, ⟨-, -, hcarries'⟩, hspans', -⟩
    · rw [hanswer]
      exact ⟨⟨_, hcarries'⟩, hspans'⟩
    · rw [hanswer]
      exact ⟨hcarries', hspans'⟩

theorem panics_of_carries (hfail : NeverFails σ) (hcodec : RoundTrips codec) (hN : 2 ≤ N)
    (hapart : Apart (placeOf fromChar N)) {keys : List String}
    (h : CarriesKeys fromChar codec slot keys st) {c : EntityCall V}
    (hc : Admissible fromChar N codec slot c) {e : EntityPanic} {s : CoordMapStore 64 N σ}
    (he : c.perform (mapEntityStore N σ fromChar codec) st = (.error e, s)) :
    NoRoomPanic slot e s ∧ EntityCall.Inserts c ∧
      2 ^ 64 ≤ areaNeed slot (placesOf fromChar N (EntityCall.taken keys c)) := by
  obtain ⟨⟨map, hcarries⟩, hspans⟩ := h
  rw [EntityCall.perform] at he
  rcases answer_cases (call_room hfail hcodec hN hapart hcarries hspans c hc) with
    ⟨a, s', hanswer, -⟩ | ⟨e', s', hanswer, ⟨hroom, hins, -⟩, -, hneed⟩
  · cases hanswer.symm.trans he
  · cases hanswer.symm.trans he
    exact ⟨hroom, hins, hneed⟩

theorem answers_of_roomy (hfail : NeverFails σ) (hcodec : RoundTrips codec) (hN : 2 ≤ N)
    (hapart : Apart (placeOf fromChar N)) (h : CarriesKeys fromChar codec slot [] st)
    {cs : List (EntityCall V)} (hcs : ∀ c ∈ cs, Admissible fromChar N codec slot c)
    (hroom : ∀ pre, pre <+: cs → areaNeed slot (placesOf fromChar N (takenBy pre)) < 2 ^ 64) :
    ∀ r ∈ (run (EntityCall.perform (mapEntityStore N σ fromChar codec)) cs st).1,
      ∃ a, r = .ok a := by
  induction cs using List.reverseRecOn with
  | nil => exact fun r hr => absurd hr List.not_mem_nil
  | append_singleton cs c ih =>
    have hcs' := fun c hc => hcs c (List.mem_append_left _ hc)
    intro r hr
    rw [run_append, List.mem_append] at hr
    rcases hr with hr | hr
    · exact ih hcs' (fun pre hpre => hroom pre (hpre.trans (List.prefix_append cs [c]))) r hr
    · rw [run_cons, run_nil, List.mem_singleton] at hr
      rcases hx : c.perform (mapEntityStore N σ fromChar codec)
        (run (EntityCall.perform (mapEntityStore N σ fromChar codec)) cs st).2 with ⟨x, s⟩
      rw [hx] at hr
      cases x with
      | ok a => exact ⟨a, hr⟩
      | error e =>
        have hc := hcs c (List.mem_append_right _ List.mem_cons_self)
        have hcarries := run_carries hfail hcodec hN hapart h hcs'
        obtain ⟨-, -, hneed⟩ := panics_of_carries hfail hcodec hN hapart hcarries hc hx
        have hlt := hroom _ (List.prefix_refl _)
        rw [takenBy_concat] at hlt
        exact absurd hlt (Nat.not_lt_of_ge hneed)

end

theorem entity_stores_agree [CoordSpace S N V] [ByteOrigin σ] (hspace : FiniteMapSpace S)
    (hinj : ∀ c d x, fromChar c = some x → fromChar d = some x → c = d)
    (hcodec : RoundTrips codec) (hfail : NeverFails σ) (hN : 2 ≤ N) {o : σ}
    (ho : ByteOrigin.bytes o = []) (d : SlotSize) :
    ∃ st : CoordMapStore 64 N σ, CoordMapStore.new o d.val = .ok st ∧
      ∀ cs : List (EntityCall V), (∀ c ∈ cs, Admissible fromChar N codec d.val c) →
        Interchangeable fromChar codec d.val (CoordSpace.new : S) st cs := by
  have hapart := places_apart hinj hN
  have hpos : 0 < N := Nat.lt_of_lt_of_le Nat.two_pos hN
  obtain ⟨st, hnew, hback⟩ := backs_new (N := N) hpos ho d
  obtain ⟨st₀, hnew₀, hspans⟩ := spans_new (N := N) hpos ho d
  cases hnew.symm.trans hnew₀
  refine ⟨st, hnew, ?_⟩
  intro cs hcs
  have hkeys : ∀ c ∈ cs, ∀ e ∈ EntityCall.inserted c, placeOf fromChar N e.1 ≠ none :=
    fun c hc e he => (hcs c hc e he).1
  have hempty : Carries fromChar codec d.val st (∅ : HashMap V) := carries_empty hback
  have hstart : CarriesKeys fromChar codec d.val [] st := ⟨⟨∅, hempty⟩, hspans⟩
  have hmap := map_implements d.val hfail hcodec hN hapart
  constructor
  · exact (coord_implements hspace hN hapart).replies_of_never (fun _ _ h => h)
      (mirrors_empty hspace.new) hkeys
  · exact hmap.replies hempty hcs
  · intro pre c post hsplit e s he
    subst hsplit
    have hpre := fun c hc => hcs c (List.mem_append_left _ hc)
    have hc := hcs c (List.mem_append_right _ List.mem_cons_self)
    rw [takenBy_concat]
    exact panics_of_carries hfail hcodec hN hapart
      (run_carries hfail hcodec hN hapart hstart hpre) hc he
  · intro hroom
    have hok := answers_of_roomy hfail hcodec hN hapart hstart hcs hroom
    have hall := hmap.replies hempty hcs cs.length fun r hr => hok r (List.mem_of_mem_take hr)
    rwa [List.take_of_length_le (by simp), List.take_of_length_le (by simp)] at hall
  · exact memory_absent (fun key _ => Finmap.lookup_empty key) hkeys

theorem entity_stores_agree_bytes :
    ∃ st : CoordMapStore 64 2 IdealOrigin, CoordMapStore.new ⟨[]⟩ 32 = .ok st ∧
      ∀ cs : List (EntityCall UInt8), (∀ c ∈ cs, Admissible hangul 2 byteCodec 32 c) →
        Interchangeable hangul byteCodec 32
          (CoordSpace.new : AList fun _ : CoordPath 2 => UInt8) st cs :=
  entity_stores_agree alist_finiteMapSpace hangul_inj byteCodec_roundTrips
    IdealOrigin.neverFails (by decide) rfl ⟨32, by decide⟩

/-- In slots of `2 ^ 64 - 1` bytes the materialized map has no room for any record, and the
first insertion panics where the hash map returns. -/
theorem full_slots_panic :
    ∃ st : CoordMapStore 64 2 IdealOrigin, CoordMapStore.new ⟨[]⟩ (2 ^ 64 - 1) = .ok st ∧
      Admissible hangul 2 byteCodec (2 ^ 64 - 1) (.insert "a" 7) ∧
      (run (EntityCall.perform (memoryEntityStore UInt8)) [.insert "a" 7] ∅).1 =
        [.ok (.value none)] ∧
      ∃ e, (run (EntityCall.perform (mapEntityStore 2 IdealOrigin hangul byteCodec))
        [.insert "a" 7] st).1 = [.error e] := by
  obtain ⟨st, hnew, hback⟩ := backs_new (N := 2) (o := (⟨[]⟩ : IdealOrigin)) (by decide) rfl
    ⟨2 ^ 64 - 1, by decide⟩
  have hadmissible : Admissible hangul 2 byteCodec (2 ^ 64 - 1) (.insert "a" 7) := by
    intro e he
    cases List.mem_singleton.mp he
    refine ⟨by decide +kernel, _, rfl, by decide⟩
  refine ⟨st, hnew, hadmissible, rfl, ?_⟩
  have hmap := map_implements (2 ^ 64 - 1) IdealOrigin.neverFails byteCodec_roundTrips
    (Nat.le_refl 2) (places_apart hangul_inj (Nat.le_refl 2))
  obtain ⟨a, st', -, -, hcarries⟩ | ⟨e, st', hanswer, -⟩ :=
    answer_cases (hmap.answers (carries_empty hback) (.insert "a" 7) hadmissible)
  · -- the record would start behind the root and end past the last address
    obtain ⟨f, hback', henc⟩ := hcarries.backs
    have hplace : placeOf hangul 2 "a" = some ⟨[97, 1], rfl⟩ := by decide +kernel
    have hvalue := henc.value "a" _ hplace
    have hroom := room_of_backs (by decide) hback' (p := ⟨[97, 1], rfl⟩) (by
      rw [hvalue, EntityCall.onMap, lookups_insert, Function.update_self]
      exact Option.some_ne_none _)
    exact absurd hroom (by decide)
  · exact ⟨e, by rw [run_cons, EntityCall.perform, hanswer]; rfl⟩

end Chton.EntityAgreement
