import Chton.EntityStores

/-!
# The hash map as the reference

What the calls of an entity store mean is what they do to a hash map. A store implements
the reference when each of its operations, on a state that stands for a hash map, gives
the reply of the hash map and leaves a state that stands for the hash map after the call.
-/

namespace Chton.EntityReference
open OutcomePrograms CallRuns TreeStrategyProgram
open StringKeys KeyedMaps EntityStores

variable {V σ : Type} {N : ℕ} {fromChar : Char → Option Coord} {key : String}
  {map : HashMap V}

/-- The hash map after a list of entries; later ones replace earlier ones. -/
def insertAll (entries : List (String × V)) : HashMap V :=
  entries.foldl (fun map e => map.insert e.1 e.2) ∅

def EntityCall.onMap : EntityCall V → HashMap V → EntityAnswer V × HashMap V
  | .get key, map => (.value (map.lookup key), map)
  | .insert key value, map => (.value (map.lookup key), map.insert key value)
  | .remove key, map => (.value (map.lookup key), map.erase key)
  | .containsKey key, map => (.flag (map.lookup key).isSome, map)
  | .len, map => (.count map.entries.card, map)
  | .values, map => (.values (map.entries.map Sigma.snd), map)
  | .clear, _ => (.done, ∅)
  | .replaceFrom entries, _ => (.done, insertAll entries)

theorem memory_perform (c : EntityCall V) (map : HashMap V) :
    c.perform (memoryEntityStore V) map =
      (.ok (EntityCall.onMap c map).1, (EntityCall.onMap c map).2) := by
  cases c <;> rfl

def lookups (map : HashMap V) (key : String) : Option V := map.lookup key

theorem lookups_empty : lookups (∅ : HashMap V) = fun _ => none := by
  funext key
  exact Finmap.lookup_empty key

theorem lookups_insert (value : V) :
    lookups (map.insert key value) = Function.update (lookups map) key (some value) := by
  funext key'
  by_cases h : key' = key
  · subst h
    rw [Function.update_self, lookups, Finmap.lookup_insert]
  · rw [Function.update_of_ne h, lookups, lookups, Finmap.lookup_insert_of_ne _ h]

theorem lookups_erase :
    lookups (map.erase key) = Function.update (lookups map) key none := by
  funext key'
  by_cases h : key' = key
  · subst h
    rw [Function.update_self, lookups, Finmap.lookup_erase]
  · rw [Function.update_of_ne h, lookups, lookups, Finmap.lookup_erase_ne h]

theorem insertAll_concat (es : List (String × V)) (e : String × V) :
    insertAll (es ++ [e]) = (insertAll es).insert e.1 e.2 :=
  List.foldl_concat _ _ _ _

def lastValue (entries : List (String × V)) (key : String) : Option V :=
  (entries.reverse.find? fun e => e.1 = key).map Prod.snd

theorem lookup_insertAll (entries : List (String × V)) (key : String) :
    (insertAll entries).lookup key = lastValue entries key := by
  induction entries using List.reverseRecOn with
  | nil => exact Finmap.lookup_empty key
  | append_singleton es e ih =>
    rw [insertAll_concat, lastValue, List.reverse_append, List.reverse_singleton,
      List.singleton_append]
    by_cases hkey : e.1 = key
    · rw [List.find?_cons_of_pos (by simpa using hkey), ← hkey, Finmap.lookup_insert]
      rfl
    · rw [List.find?_cons_of_neg (by simpa using hkey), ← lastValue, ← ih]
      exact Finmap.lookup_insert_of_ne _ fun h => hkey h.symm

theorem erase_absent (h : map.lookup key = none) : map.erase key = map := by
  apply Finmap.ext_lookup
  intro key'
  by_cases hkey : key' = key
  · rw [hkey, Finmap.lookup_erase, h]
  · rw [Finmap.lookup_erase_ne hkey]

theorem exists_keys (map : HashMap V) :
    ∃ ks, Lists (lookups map) ks ∧ map.entries.card = ks.length ∧
      map.entries.map Sigma.snd = (ks.filterMap (lookups map) : Multiset V) := by
  induction map using Finmap.induction_on with
  | H list =>
    have hlookup : ∀ e ∈ list.entries, lookups list.toFinmap e.1 = some e.2 := fun e he =>
      (Finmap.lookup_toFinmap e.1 list).trans (AList.mem_lookup_iff.mpr he)
    refine ⟨list.entries.map Sigma.fst, ⟨list.nodupKeys, fun key => ?_⟩, ?_, ?_⟩
    · rw [lookups, Ne, Finmap.lookup_eq_none, not_not]
      rfl
    · rw [List.length_map]
      rfl
    · have hvalues : (list.entries.map Sigma.fst).filterMap (lookups list.toFinmap) =
          list.entries.map Sigma.snd := by
        rw [List.filterMap_map, ← List.filterMap_eq_map]
        exact List.filterMap_congr hlookup
      exact congrArg _ hvalues.symm

theorem card_of_lists {ks : List String} (h : Lists (lookups map) ks) :
    map.entries.card = ks.length := by
  obtain ⟨ks', hks', hcard, -⟩ := exists_keys map
  rw [hcard, (hks'.perm h).length_eq]

theorem values_of_lists {ks : List String} (h : Lists (lookups map) ks) :
    map.entries.map Sigma.snd = (ks.filterMap (lookups map) : Multiset V) := by
  obtain ⟨ks', hks', -, hvalues⟩ := exists_keys map
  rw [hvalues]
  exact Multiset.coe_eq_coe.mpr ((hks'.perm h).filterMap _)

def placeOf (fromChar : Char → Option Coord) (N : ℕ) (key : String) : Option (CoordPath N) :=
  (strToCoordpath fromChar N key).toOption

theorem placeOf_eq_some {p : CoordPath N} :
    placeOf fromChar N key = some p ↔ strToCoordpath fromChar N key = .ok p := by
  rw [placeOf]
  cases strToCoordpath fromChar N key with
  | ok q => simp [Except.toOption]
  | error e => simp [Except.toOption]

theorem places_apart (hinj : ∀ c d x, fromChar c = some x → fromChar d = some x → c = d)
    (hN : 2 ≤ N) : Apart (placeOf fromChar N) := by
  intro a b p ha hb
  exact eq_of_strToCoordpath_eq hinj hN (placeOf_eq_some.mp ha) (placeOf_eq_some.mp hb)

theorem probe_eq (hN : 2 ≤ N) :
    (probe fromChar N key : EntityProgram σ _) = pure (placeOf fromChar N key) := by
  obtain ⟨⟨p, hp⟩, -⟩ | ⟨⟨e, he⟩, -⟩ := strToCoordpath_cases (M := N) hN key
  · rw [probe, placeOf, hp]
    rfl
  · rw [probe, placeOf, he]
    rfl

theorem mapKeyOrPanic_eq {p : CoordPath N} (h : placeOf fromChar N key = some p) :
    (mapKeyOrPanic fromChar N key : EntityProgram σ _) = pure p := by
  rw [mapKeyOrPanic, placeOf_eq_some.mp h]

/-- A store implements the reference: `R` ties its states to hash maps, `P` is what an
inserted entry must meet, and `E` are the panics that an insertion may end with. -/
structure Implements (store : EntityStore V σ) (R : σ → HashMap V → Prop)
    (P : String × V → Prop) (E : EntityPanic → σ → Prop) : Prop where
  get : ∀ {s map}, R s map → ∀ key, Ensures (store.get key) s
    (fun v s' => v = map.lookup key ∧ R s' map) fun _ _ => False
  insert : ∀ {s map}, R s map → ∀ key value, P (key, value) → Ensures (store.insert key value) s
    (fun prev s' => prev = map.lookup key ∧ R s' (map.insert key value))
    fun e s' => E e s' ∧ R s' map
  remove : ∀ {s map}, R s map → ∀ key, Ensures (store.remove key) s
    (fun prev s' => prev = map.lookup key ∧ R s' (map.erase key)) fun _ _ => False
  containsKey : ∀ {s map}, R s map → ∀ key, Ensures (store.containsKey key) s
    (fun b s' => b = (map.lookup key).isSome ∧ R s' map) fun _ _ => False
  len : ∀ {s map}, R s map → Ensures store.len s
    (fun n s' => n = map.entries.card ∧ R s' map) fun _ _ => False
  values : ∀ {s map}, R s map → Ensures store.values s
    (fun vs s' => vs = map.entries.map Sigma.snd ∧ R s' map) fun _ _ => False
  clear : ∀ {s map}, R s map → Ensures store.clear s (fun _ s' => R s' ∅) fun _ _ => False
  replaceFrom : ∀ {s map}, R s map → ∀ entries, (∀ e ∈ entries, P e) →
    Ensures (store.replaceFrom entries) s (fun _ s' => R s' (insertAll entries))
      fun e s' => E e s' ∧ ∃ map', R s' map'

def EntityCall.inserted : EntityCall V → List (String × V)
  | .insert key value => [(key, value)]
  | .replaceFrom entries => entries
  | _ => []

def EntityCall.Inserts : EntityCall V → Prop
  | .insert _ _ => True
  | .replaceFrom _ => True
  | _ => False

variable {store : EntityStore V σ} {R : σ → HashMap V → Prop} {P : String × V → Prop}
  {E : EntityPanic → σ → Prop} {s : σ}

theorem Implements.answers (h : Implements store R P E) (hR : R s map) (c : EntityCall V)
    (hc : ∀ e ∈ EntityCall.inserted c, P e) :
    Ensures (c.program store) s
      (fun a s' => a = (EntityCall.onMap c map).1 ∧ R s' (EntityCall.onMap c map).2)
      fun e s' => E e s' ∧ EntityCall.Inserts c ∧ ∃ map', R s' map' := by
  cases c with
  | get key =>
    rw [EntityCall.program, ensures_map]
    exact (h.get hR key).mono (fun _ _ hv => ⟨congrArg _ hv.1, hv.2⟩) fun _ _ hf => hf.elim
  | insert key value =>
    rw [EntityCall.program, ensures_map]
    apply (h.insert hR key value (hc _ List.mem_cons_self)).mono
    · exact fun _ _ hv => ⟨congrArg _ hv.1, hv.2⟩
    · exact fun _ _ he => ⟨he.1, trivial, map, he.2⟩
  | remove key =>
    rw [EntityCall.program, ensures_map]
    exact (h.remove hR key).mono (fun _ _ hv => ⟨congrArg _ hv.1, hv.2⟩) fun _ _ hf => hf.elim
  | containsKey key =>
    rw [EntityCall.program, ensures_map]
    exact (h.containsKey hR key).mono (fun _ _ hv => ⟨congrArg _ hv.1, hv.2⟩) fun _ _ hf => hf.elim
  | len =>
    rw [EntityCall.program, ensures_map]
    exact (h.len hR).mono (fun _ _ hv => ⟨congrArg _ hv.1, hv.2⟩) fun _ _ hf => hf.elim
  | values =>
    rw [EntityCall.program, ensures_map]
    exact (h.values hR).mono (fun _ _ hv => ⟨congrArg _ hv.1, hv.2⟩) fun _ _ hf => hf.elim
  | clear =>
    rw [EntityCall.program, ensures_map]
    exact (h.clear hR).mono (fun _ _ hs => ⟨rfl, hs⟩) fun _ _ hf => hf.elim
  | replaceFrom entries =>
    rw [EntityCall.program, ensures_map]
    apply (h.replaceFrom hR entries hc).mono
    · exact fun _ _ hs => ⟨rfl, hs⟩
    · exact fun _ _ he => ⟨he.1, trivial, he.2⟩

theorem run_memory_cons (c : EntityCall V) (cs : List (EntityCall V)) (map : HashMap V) :
    (run (EntityCall.perform (memoryEntityStore V)) (c :: cs) map).1 =
      .ok (EntityCall.onMap c map).1 ::
        (run (EntityCall.perform (memoryEntityStore V)) cs (EntityCall.onMap c map).2).1 := by
  rw [run_cons, memory_perform]

/-- Up to the first panic an implementation gives the replies of the hash map. -/
theorem Implements.replies (h : Implements store R P E) (hR : R s map) {cs : List (EntityCall V)}
    (hcs : ∀ c ∈ cs, ∀ e ∈ EntityCall.inserted c, P e) (n : ℕ)
    (hok : ∀ r ∈ (run (EntityCall.perform store) cs s).1.take n, ∃ a, r = .ok a) :
    (run (EntityCall.perform store) cs s).1.take n =
      (run (EntityCall.perform (memoryEntityStore V)) cs map).1.take n := by
  induction cs generalizing s map n with
  | nil => rfl
  | cons c cs ih =>
    cases n with
    | zero => rfl
    | succ n =>
      obtain ⟨hc, hcs⟩ := List.forall_mem_cons.mp hcs
      rw [run_cons, List.take_succ_cons] at hok
      obtain ⟨hfirst, hrest⟩ := List.forall_mem_cons.mp hok
      rw [run_memory_cons, run_cons, List.take_succ_cons, List.take_succ_cons]
      rcases answer_cases (h.answers hR c hc) with ⟨a, s', hanswer, rfl, hR'⟩ | ⟨e, s', hanswer, -⟩
      · rw [EntityCall.perform, hanswer] at hrest ⊢
        rw [ih hR' hcs n hrest]
      · obtain ⟨a, ha⟩ := hfirst
        rw [EntityCall.perform, hanswer] at ha
        exact nomatch ha

theorem Implements.replies_of_never (h : Implements store R P E) (hE : ∀ e s, ¬E e s) (hR : R s map)
    {cs : List (EntityCall V)} (hcs : ∀ c ∈ cs, ∀ e ∈ EntityCall.inserted c, P e) :
    (run (EntityCall.perform store) cs s).1 =
      (run (EntityCall.perform (memoryEntityStore V)) cs map).1 := by
  refine (run_simulation (R := R) ?_ hR).1
  intro c hc s map hR
  rcases answer_cases (h.answers hR c (hcs c hc)) with ⟨a, s', hanswer, rfl, hR'⟩ | ⟨e, s', -, he, -⟩
  · rw [memory_perform, EntityCall.perform, hanswer]
    exact ⟨rfl, hR'⟩
  · exact absurd he (hE e s')

end Chton.EntityReference
