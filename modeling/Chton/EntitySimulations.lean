import Chton.EntityReference

/-!
# The coordinate space and the materialized map implement the reference

Both keep the entries of the hash map under the paths of the keys; the materialized map
keeps the encodings of the values.
-/

namespace Chton.EntitySimulations
open OutcomePrograms CallRuns ByteRegions Origins TreeStrategyProgram CoordMapProgram
open StringKeys LayoutContents KeyedMaps StoreRuns MapServices EntityStores EntityReference

variable {V S σ : Type} {N : ℕ} {fromChar : Char → Option Coord} {key : String}
  {map : HashMap V}

/-- `CoordSpaceN` is a finite map from paths. -/
structure FiniteMapSpace (S : Type) {N : ℕ} {V : Type} [CoordSpace S N V] : Prop where
  new : CoordSpace.atPath (CoordSpace.new : S) = fun _ => none
  place : ∀ (s : S) p v, (CoordSpace.placePath s p v).1 = CoordSpace.atPath s p ∧
    CoordSpace.atPath (CoordSpace.placePath s p v).2 =
      Function.update (CoordSpace.atPath s) p (some v)
  vacate : ∀ (s : S) p, (CoordSpace.vacatePath s p).1 = CoordSpace.atPath s p ∧
    CoordSpace.atPath (CoordSpace.vacatePath s p).2 = Function.update (CoordSpace.atPath s) p none
  nodup : ∀ s : S, ((CoordSpace.iterTree s).map Prod.fst).Nodup
  mem : ∀ (s : S) p v, (p, v) ∈ CoordSpace.iterTree s ↔ CoordSpace.atPath s p = some v
  len : ∀ s : S, CoordSpace.len s = (CoordSpace.iterTree s).length
  clear : ∀ s : S, CoordSpace.atPath (CoordSpace.clear s) = fun _ => none

section
variable [CoordSpace S N V] {space : S}

/-- The space keeps the entries of the hash map under the paths of their keys. -/
abbrev Mirrors (fromChar : Char → Option Coord) (space : S) (map : HashMap V) : Prop :=
  Encodes (placeOf fromChar N) (fun _ v => v) (CoordSpace.atPath space) (lookups map)

theorem lists_iterTree (hspace : FiniteMapSpace S) (space : S) :
    Lists (CoordSpace.atPath space) ((CoordSpace.iterTree space).map Prod.fst) := by
  refine ⟨hspace.nodup space, fun p => ?_⟩
  rw [List.mem_map, Option.ne_none_iff_exists']
  constructor
  · intro hp
    obtain ⟨e, he, rfl⟩ := hp
    exact ⟨e.2, (hspace.mem space e.1 e.2).mp he⟩
  · intro hp
    obtain ⟨v, hv⟩ := hp
    exact ⟨(p, v), (hspace.mem space p v).mpr hv, rfl⟩

theorem values_iterTree (hspace : FiniteMapSpace S) (space : S) :
    (CoordSpace.iterTree space).map Prod.snd =
      ((CoordSpace.iterTree space).map Prod.fst).filterMap (CoordSpace.atPath space) := by
  rw [List.filterMap_map, ← List.filterMap_eq_map]
  symm
  apply List.filterMap_congr
  intro e he
  exact (hspace.mem space e.1 e.2).mp he

theorem Mirrors.at (h : Mirrors fromChar space map) {p : CoordPath N}
    (hp : placeOf fromChar N key = some p) : CoordSpace.atPath space p = lookups map key := by
  rw [h.value key p hp]
  exact Option.map_id'

theorem Mirrors.absent (h : Mirrors fromChar space map) (hp : placeOf fromChar N key = none) :
    map.lookup key = none :=
  Encodes.absent (g := lookups map) h hp

theorem Mirrors.insert (h : Mirrors fromChar space map) (hspace : FiniteMapSpace S)
    (hapart : Apart (placeOf fromChar N)) {p : CoordPath N}
    (hp : placeOf fromChar N key = some p) (v : V) :
    Mirrors fromChar (CoordSpace.placePath space p v).2 (map.insert key v) := by
  rw [Mirrors, (hspace.place space p v).2, lookups_insert]
  exact h.update hapart hp (some v)

theorem Mirrors.remove (h : Mirrors fromChar space map) (hspace : FiniteMapSpace S)
    (hapart : Apart (placeOf fromChar N)) {p : CoordPath N}
    (hp : placeOf fromChar N key = some p) :
    Mirrors fromChar (CoordSpace.vacatePath space p).2 (map.erase key) := by
  rw [Mirrors, (hspace.vacate space p).2, lookups_erase]
  exact h.update hapart hp none

theorem mirrors_empty {s : S} (h : CoordSpace.atPath s = fun _ => none) :
    Mirrors fromChar s (∅ : HashMap V) := by
  rw [Mirrors, h, lookups_empty]
  exact encodes_none

theorem coord_getEntry (hN : 2 ≤ N) (h : Mirrors fromChar space map) (key : String) :
    Ensures (CoordEntityStore.getEntry fromChar key) space
      (fun v space' => v = map.lookup key ∧ Mirrors fromChar space' map) fun _ _ => False := by
  rw [CoordEntityStore.getEntry, probe_eq hN, pure_bind]
  cases hp : placeOf fromChar N key with
  | none => exact ensures_pure.mpr ⟨(h.absent hp).symm, h⟩
  | some p =>
    rw [ensures_bind, ensures_get, ensures_pure]
    exact ⟨h.at hp, h⟩

theorem coord_insertEntry (hspace : FiniteMapSpace S) (hapart : Apart (placeOf fromChar N))
    (h : Mirrors fromChar space map) (hkey : placeOf fromChar N key ≠ none) (value : V) :
    Ensures (CoordEntityStore.insertEntry fromChar key value) space
      (fun prev space' => prev = map.lookup key ∧ Mirrors fromChar space' (map.insert key value))
      fun _ _ => False := by
  obtain ⟨p, hp⟩ := Option.ne_none_iff_exists'.mp hkey
  rw [CoordEntityStore.insertEntry, mapKeyOrPanic_eq hp, pure_bind, ensures_bind, ensures_get,
    ensures_bind, ensures_set, ensures_pure]
  exact ⟨(hspace.place space p value).1.trans (h.at hp), h.insert hspace hapart hp value⟩

theorem coord_removeEntry (hspace : FiniteMapSpace S) (hN : 2 ≤ N)
    (hapart : Apart (placeOf fromChar N)) (h : Mirrors fromChar space map) (key : String) :
    Ensures (CoordEntityStore.removeEntry fromChar key) space
      (fun prev space' => prev = map.lookup key ∧ Mirrors fromChar space' (map.erase key))
      fun _ _ => False := by
  rw [CoordEntityStore.removeEntry, probe_eq hN, pure_bind]
  cases hp : placeOf fromChar N key with
  | none =>
    have habsent := h.absent hp
    refine ensures_pure.mpr ⟨habsent.symm, ?_⟩
    rw [erase_absent habsent]
    exact h
  | some p =>
    rw [ensures_bind, ensures_get, ensures_bind, ensures_set, ensures_pure]
    exact ⟨(hspace.vacate space p).1.trans (h.at hp), h.remove hspace hapart hp⟩

theorem coord_containsEntry (hN : 2 ≤ N) (h : Mirrors fromChar space map) (key : String) :
    Ensures (CoordEntityStore.containsEntry fromChar key) space
      (fun b space' => b = (map.lookup key).isSome ∧ Mirrors fromChar space' map)
      fun _ _ => False := by
  rw [CoordEntityStore.containsEntry, probe_eq hN, pure_bind]
  cases hp : placeOf fromChar N key with
  | none =>
    rw [h.absent hp]
    exact ensures_pure.mpr ⟨rfl, h⟩
  | some p =>
    rw [ensures_bind, ensures_get, ensures_pure]
    exact ⟨congrArg Option.isSome (h.at hp), h⟩

theorem coord_entryCount (hspace : FiniteMapSpace S) (hapart : Apart (placeOf fromChar N))
    (h : Mirrors fromChar space map) :
    Ensures (CoordEntityStore.entryCount : EntityProgram S ℕ) space
      (fun n space' => n = map.entries.card ∧ Mirrors fromChar space' map) fun _ _ => False := by
  obtain ⟨ks, hks, hplaces⟩ := h.names hapart (lists_iterTree hspace space)
  rw [CoordEntityStore.entryCount, ensures_bind, ensures_get, ensures_pure]
  refine ⟨?_, h⟩
  rw [card_of_lists hks, hspace.len, length_of_places hplaces, List.length_map]

theorem coord_allValues (hspace : FiniteMapSpace S) (hapart : Apart (placeOf fromChar N))
    (h : Mirrors fromChar space map) :
    Ensures (CoordEntityStore.allValues : EntityProgram S (List V)) space
      (fun vs space' => (vs : Multiset V) = map.entries.map Sigma.snd ∧
        Mirrors fromChar space' map) fun _ _ => False := by
  obtain ⟨ks, hks, hplaces⟩ := h.names hapart (lists_iterTree hspace space)
  rw [CoordEntityStore.allValues, ensures_bind, ensures_get, ensures_pure]
  refine ⟨?_, h⟩
  rw [values_of_lists hks, values_iterTree hspace, h.values hplaces]
  simp only [Option.map_id']

theorem coord_replaceEntries (hspace : FiniteMapSpace S) (hapart : Apart (placeOf fromChar N))
    {entries : List (String × V)} (hkeys : ∀ e ∈ entries, placeOf fromChar N e.1 ≠ none) :
    Ensures (CoordEntityStore.replaceEntries fromChar entries) space
      (fun _ space' => Mirrors fromChar space' (insertAll entries)) fun _ _ => False := by
  rw [CoordEntityStore.replaceEntries, ensures_bind, ensures_modify]
  refine Ensures.foldlM (fun visited _ space' => Mirrors fromChar space' (insertAll visited))
    (mirrors_empty (hspace.clear space)) ?_
  intro visited e rest _ space' hsplit hmirrors
  have hmem : e ∈ entries := hsplit ▸ List.mem_append_right _ List.mem_cons_self
  obtain ⟨p, hp⟩ := Option.ne_none_iff_exists'.mp (hkeys e hmem)
  rw [mapKeyOrPanic_eq hp, pure_bind, ensures_modify, insertAll_concat]
  exact hmirrors.insert hspace hapart hp e.2

theorem coord_clearEntries (hspace : FiniteMapSpace S) :
    Ensures (CoordEntityStore.clearEntries : EntityProgram S Unit) space
      (fun _ space' => Mirrors fromChar space' (∅ : HashMap V)) fun _ _ => False := by
  rw [CoordEntityStore.clearEntries, ensures_modify]
  exact mirrors_empty (hspace.clear space)

/-- The coordinate space implements the reference and never panics on representable keys. -/
theorem coord_implements (hspace : FiniteMapSpace S) (hN : 2 ≤ N)
    (hapart : Apart (placeOf fromChar N)) :
    Implements (coordEntityStore S fromChar) (Mirrors fromChar)
      (fun e : String × V => placeOf fromChar N e.1 ≠ none) fun _ _ => False where
  get h _ := coord_getEntry hN h _
  insert h _ value hkey := (coord_insertEntry hspace hapart h hkey value).mono
    (fun _ _ hq => hq) fun _ _ hf => hf.elim
  remove h key := coord_removeEntry hspace hN hapart h key
  containsKey h _ := coord_containsEntry hN h _
  len h := coord_entryCount hspace hapart h
  values h := (coord_allValues hspace hapart h).andThen
    fun _ _ hvs => ensures_pure.mpr hvs
  clear _ := coord_clearEntries hspace
  replaceFrom _ _ hentries := (coord_replaceEntries hspace hapart hentries).mono
    (fun _ _ hq => hq) fun _ _ hf => hf.elim

end

def RoundTrips (codec : Codec V) : Prop :=
  ∀ v b, codec.toAllocvec v = some b → codec.fromBytes b.val = some v

def Storable (codec : Codec V) (slot : ℕ) (v : V) : Prop :=
  ∃ b, codec.toAllocvec v = some b ∧ b.val.length ≤ slot - lengthBytes

def bytesOf (codec : Codec V) (v : V) : Bytes :=
  ((codec.toAllocvec v).map Subtype.val).getD []

variable {codec : Codec V} {slot : ℕ}

theorem encodeValue_eq {v : V} (h : Storable codec slot v) :
    ∃ b : Value, (encodeValue codec v : EntityProgram σ Value) = pure b ∧
      b.val = bytesOf codec v ∧ b.val.length ≤ slot - lengthBytes := by
  obtain ⟨b, hb, hlen⟩ := h
  refine ⟨b, ?_, ?_, hlen⟩
  · rw [encodeValue, hb]
  · rw [bytesOf, hb]
    rfl

theorem decodeValue_eq (hcodec : RoundTrips codec) {v : V} (h : Storable codec slot v) :
    (decodeValue codec (bytesOf codec v) : EntityProgram σ V) = pure v := by
  obtain ⟨b, hb, -⟩ := h
  have hbytes : bytesOf codec v = b.val := by
    rw [bytesOf, hb]
    rfl
  rw [hbytes, decodeValue, hcodec v b hb]

theorem decodePrev_eq (hcodec : RoundTrips codec) {prev : Option V}
    (h : ∀ v, prev = some v → Storable codec slot v) :
    (decodePrev codec (prev.map (bytesOf codec)) : EntityProgram σ (Option V)) = pure prev := by
  cases prev with
  | none => rfl
  | some v => rw [Option.map_some, decodePrev, decodeValue_eq hcodec (h v rfl), pure_bind]

theorem decodeAll_eq (hcodec : RoundTrips codec) {vs : List V}
    (h : ∀ v ∈ vs, Storable codec slot v) :
    ((vs.map (bytesOf codec)).mapM (decodeValue codec) : EntityProgram σ (List V)) = pure vs := by
  induction vs with
  | nil => rfl
  | cons v vs ih =>
    obtain ⟨hv, hvs⟩ := List.forall_mem_cons.mp h
    rw [List.map_cons, List.mapM_cons, decodeValue_eq hcodec hv, pure_bind, ih hvs, pure_bind]

def Prepared (fromChar : Char → Option Coord) (codec : Codec V) (slot : ℕ) (e : String × V)
    (x : CoordPath N × Value) : Prop :=
  placeOf fromChar N e.1 = some x.1 ∧ x.2.val = bytesOf codec e.2 ∧
    x.2.val.length ≤ slot - lengthBytes

theorem prepare_eq {entries : List (String × V)}
    (h : ∀ e ∈ entries, placeOf fromChar N e.1 ≠ none ∧ Storable codec slot e.2) :
    ∃ encoded : List (CoordPath N × Value),
      (entries.mapM (fun e => do
        let path ← mapKeyOrPanic fromChar N e.1
        let bytes ← encodeValue codec e.2
        pure (path, bytes)) : EntityProgram σ _) = pure encoded ∧
      List.Forall₂ (Prepared fromChar codec slot) entries encoded := by
  induction entries with
  | nil => exact ⟨[], rfl, .nil⟩
  | cons e entries ih =>
    obtain ⟨⟨hkey, hvalue⟩, hrest⟩ := List.forall_mem_cons.mp h
    obtain ⟨p, hp⟩ := Option.ne_none_iff_exists'.mp hkey
    obtain ⟨b, henc, hb, hlen⟩ := encodeValue_eq (σ := σ) hvalue
    obtain ⟨encoded, hencoded, hprepared⟩ := ih hrest
    refine ⟨(p, b) :: encoded, ?_, .cons ⟨hp, hb, hlen⟩ hprepared⟩
    simp only [List.mapM_cons, mapKeyOrPanic_eq hp, henc, pure_bind, hencoded]

/-- The panics of an allocation without room, in the store that they leave. -/
def NoRoomPanic (slot : ℕ) (e : EntityPanic) (st : CoordMapStore 64 N σ) : Prop :=
  ∃ operation e₀, e = EntityPanic.ofStop operation e₀ ∧ NoRoom slot st e₀

theorem onMap_spec {α : Type} {operation : Operation} {x : MapProgram 64 N σ α}
    {st : CoordMapStore 64 N σ}
    {Q : α → CoordMapStore 64 N σ → Prop} {E : Stop MapError → CoordMapStore 64 N σ → Prop}
    (h : Ensures x st Q E) :
    Ensures (MapEntityStore.onMap operation x) st Q
      fun e st' => ∃ e₀, e = EntityPanic.ofStop operation e₀ ∧ E e₀ st' := by
  rw [MapEntityStore.onMap, ensures_focus]
  exact h.mono (fun _ _ hq => hq) fun e _ he => ⟨e, rfl, he⟩

section
variable [ByteOrigin σ] {st : CoordMapStore 64 N σ}

/-- The store keeps the encoded entries of the hash map under the paths of their keys. -/
structure Carries (fromChar : Char → Option Coord) (codec : Codec V) (slot : ℕ)
    (st : CoordMapStore 64 N σ) (map : HashMap V) : Prop where
  backs : ∃ f : PathMap N, Backs slot st f ∧
    Encodes (placeOf fromChar N) (fun _ => bytesOf codec) f (lookups map)
  storable : ∀ key v, map.lookup key = some v → Storable codec slot v

theorem Carries.absent (h : Carries fromChar codec slot st map)
    (hp : placeOf fromChar N key = none) : map.lookup key = none := by
  obtain ⟨f, -, henc⟩ := h.backs
  exact Encodes.absent (g := lookups map) henc hp

theorem storable_insert (h : ∀ key v, map.lookup key = some v → Storable codec slot v) {v : V}
    (hv : Storable codec slot v) :
    ∀ key' v', (map.insert key v).lookup key' = some v' → Storable codec slot v' := by
  intro key' v' hlookup
  by_cases hkey : key' = key
  · subst hkey
    rw [Finmap.lookup_insert] at hlookup
    cases hlookup
    exact hv
  · rw [Finmap.lookup_insert_of_ne _ hkey] at hlookup
    exact h key' v' hlookup

theorem storable_erase (h : ∀ key v, map.lookup key = some v → Storable codec slot v) :
    ∀ key' v', (map.erase key).lookup key' = some v' → Storable codec slot v' := by
  intro key' v' hlookup
  by_cases hkey : key' = key
  · rw [hkey, Finmap.lookup_erase] at hlookup
    exact nomatch hlookup
  · rw [Finmap.lookup_erase_ne hkey] at hlookup
    exact h key' v' hlookup

theorem carries_empty (h : Backs slot st fun _ => none) :
    Carries fromChar codec slot st (∅ : HashMap V) := by
  refine ⟨⟨_, h, ?_⟩, ?_⟩
  · rw [lookups_empty]
    exact encodes_none
  · intro key v hlookup
    rw [Finmap.lookup_empty] at hlookup
    exact nomatch hlookup

theorem map_getPath (hfail : NeverFails σ) (hN : 0 < N) (h : Carries fromChar codec slot st map)
    {p : CoordPath N} (hp : placeOf fromChar N key = some p) :
    Ensures (MapEntityStore.onMap .get (getPath p)) st
      (fun v st' => v = (map.lookup key).map (bytesOf codec) ∧ Carries fromChar codec slot st' map)
      fun _ _ => False := by
  obtain ⟨⟨f, hback, henc⟩, hstorable⟩ := h
  apply (onMap_spec (getPath_backs hfail hN hback p)).mono
  · intro v st' hv
    exact ⟨hv.1.trans (henc.value key p hp), ⟨f, hv.2, henc⟩, hstorable⟩
  · exact fun e st' he => he.elim fun _ he => he.2

theorem map_putPath (hfail : NeverFails σ) (hN : 0 < N) (hapart : Apart (placeOf fromChar N))
    (h : Carries fromChar codec slot st map) {p : CoordPath N}
    (hp : placeOf fromChar N key = some p) {v : V} (hv : Storable codec slot v) {b : Value}
    (hb : b.val = bytesOf codec v) (hlen : b.val.length ≤ slot - lengthBytes)
    (operation : Operation) :
    Ensures (MapEntityStore.onMap operation (putPath p b.val)) st
      (fun prev st' => prev = (map.lookup key).map (bytesOf codec) ∧
        Carries fromChar codec slot st' (map.insert key v))
      fun e st' => NoRoomPanic slot e st' ∧ Carries fromChar codec slot st' map := by
  obtain ⟨⟨f, hback, henc⟩, hstorable⟩ := h
  apply (onMap_spec (putPath_backs hfail hN hback p b.property)).mono
  · intro prev st' hdone
    obtain ⟨-, hprev, hback'⟩ := hdone
    refine ⟨hprev.trans (henc.value key p hp), ⟨_, hback', ?_⟩, storable_insert hstorable hv⟩
    rw [hb, lookups_insert]
    exact henc.update hapart hp (some v)
  · intro e st' he
    obtain ⟨e₀, rfl, ⟨hbig, -⟩ | ⟨-, hroom, hback'⟩⟩ := he
    · exact absurd hlen (Nat.not_le_of_gt hbig)
    · exact ⟨⟨operation, e₀, rfl, hroom⟩, ⟨f, hback', henc⟩, hstorable⟩

theorem map_getEntry (hfail : NeverFails σ) (hcodec : RoundTrips codec) (hN : 2 ≤ N)
    (h : Carries fromChar codec slot st map) (key : String) :
    Ensures (MapEntityStore.getEntry fromChar codec key) st
      (fun v st' => v = map.lookup key ∧ Carries fromChar codec slot st' map) fun _ _ => False := by
  rw [MapEntityStore.getEntry, probe_eq hN, pure_bind]
  cases hp : placeOf fromChar N key with
  | none => exact ensures_pure.mpr ⟨(h.absent hp).symm, h⟩
  | some p =>
    apply (map_getPath hfail (by omega) h hp).andThen
    intro v st' hv
    rw [hv.1, decodePrev_eq hcodec (h.storable key)]
    exact ensures_pure.mpr ⟨rfl, hv.2⟩

theorem map_insertEntry (hfail : NeverFails σ) (hcodec : RoundTrips codec) (hN : 2 ≤ N)
    (hapart : Apart (placeOf fromChar N)) (h : Carries fromChar codec slot st map)
    (hkey : placeOf fromChar N key ≠ none) {value : V} (hvalue : Storable codec slot value) :
    Ensures (MapEntityStore.insertEntry fromChar codec key value) st
      (fun prev st' => prev = map.lookup key ∧
        Carries fromChar codec slot st' (map.insert key value))
      fun e st' => NoRoomPanic slot e st' ∧ Carries fromChar codec slot st' map := by
  obtain ⟨p, hp⟩ := Option.ne_none_iff_exists'.mp hkey
  obtain ⟨b, henc, hb, hlen⟩ := encodeValue_eq (σ := CoordMapStore 64 N σ) hvalue
  rw [MapEntityStore.insertEntry, mapKeyOrPanic_eq hp, pure_bind, henc, pure_bind]
  apply (map_putPath hfail (by omega) hapart h hp hvalue hb hlen .insert).andThen
  intro prev st' hdone
  rw [hdone.1, decodePrev_eq hcodec (h.storable key)]
  exact ensures_pure.mpr ⟨rfl, hdone.2⟩

theorem map_removeEntry (hfail : NeverFails σ) (hcodec : RoundTrips codec) (hN : 2 ≤ N)
    (hapart : Apart (placeOf fromChar N)) (h : Carries fromChar codec slot st map) (key : String) :
    Ensures (MapEntityStore.removeEntry fromChar codec key) st
      (fun prev st' => prev = map.lookup key ∧ Carries fromChar codec slot st' (map.erase key))
      fun _ _ => False := by
  rw [MapEntityStore.removeEntry, probe_eq hN, pure_bind]
  cases hp : placeOf fromChar N key with
  | none =>
    have habsent := h.absent hp
    refine ensures_pure.mpr ⟨habsent.symm, ?_⟩
    rw [erase_absent habsent]
    exact h
  | some p =>
    obtain ⟨⟨f, hback, henc⟩, hstorable⟩ := h
    refine (onMap_spec (removePath_backs hfail (by omega) hback p)).bind ?_
      fun e st' he => he.elim fun _ he => he.2
    intro prev st' hdone
    rw [hdone.1, henc.value key p hp]
    change Ensures (decodePrev codec ((map.lookup key).map (bytesOf codec))) _ _ _
    rw [decodePrev_eq hcodec (hstorable key)]
    refine ensures_pure.mpr ⟨rfl, ⟨_, hdone.2, ?_⟩, storable_erase hstorable⟩
    rw [lookups_erase]
    exact henc.update hapart hp none

theorem map_containsEntry (hfail : NeverFails σ) (hN : 2 ≤ N)
    (h : Carries fromChar codec slot st map) (key : String) :
    Ensures (MapEntityStore.containsEntry fromChar key) st
      (fun b st' => b = (map.lookup key).isSome ∧ Carries fromChar codec slot st' map)
      fun _ _ => False := by
  rw [MapEntityStore.containsEntry, probe_eq hN, pure_bind]
  cases hp : placeOf fromChar N key with
  | none =>
    rw [h.absent hp]
    exact ensures_pure.mpr ⟨rfl, h⟩
  | some p =>
    apply (map_getPath hfail (by omega) h hp).andThen
    intro v st' hv
    rw [hv.1, Option.isSome_map]
    exact ensures_pure.mpr ⟨rfl, hv.2⟩

theorem map_entryCount (hapart : Apart (placeOf fromChar N))
    (h : Carries fromChar codec slot st map) :
    Ensures (MapEntityStore.entryCount : EntityProgram (CoordMapStore 64 N σ) ℕ) st
      (fun n st' => n = map.entries.card ∧ Carries fromChar codec slot st' map)
      fun _ _ => False := by
  obtain ⟨f, hback, henc⟩ := h.backs
  obtain ⟨ps, hps, hlen⟩ := len_backs hback
  obtain ⟨ks, hks, hplaces⟩ := henc.names hapart hps
  rw [MapEntityStore.entryCount, ensures_bind, ensures_get, ensures_pure]
  refine ⟨?_, h⟩
  rw [card_of_lists hks, hlen, length_of_places hplaces]

theorem map_allValues (hfail : NeverFails σ) (hcodec : RoundTrips codec) (hN : 2 ≤ N)
    (hapart : Apart (placeOf fromChar N)) (h : Carries fromChar codec slot st map) :
    Ensures (MapEntityStore.allValues codec : EntityProgram (CoordMapStore 64 N σ) (List V)) st
      (fun vs st' => (vs : Multiset V) = map.entries.map Sigma.snd ∧
        Carries fromChar codec slot st' map) fun _ _ => False := by
  obtain ⟨⟨f, hback, henc⟩, hstorable⟩ := h
  rw [MapEntityStore.allValues]
  refine (onMap_spec (entries_backs hfail (by omega) hback)).bind ?_
    fun e st' he => he.elim fun _ he => he.2
  intro es st' hes
  obtain ⟨hback', ps, hps, hvalues⟩ := hes
  obtain ⟨ks, hks, hplaces⟩ := henc.names hapart hps
  -- every enumerated record is the encoding of a value of the hash map
  have hsome := map_eq_of_isSome (f := lookups map) fun k (hk : k ∈ ks) =>
    Option.isSome_iff_ne_none.mpr ((hks.mem k).mp hk)
  have hbytes : es.map (fun e => e.2) = (ks.filterMap (lookups map)).map (bytesOf codec) := by
    have hread := hvalues.symm.trans (henc.entries hplaces)
    have hmap : ks.map (fun k => (lookups map k).map (bytesOf codec)) =
        ((ks.filterMap (lookups map)).map (bytesOf codec)).map some := by
      have hcongr := congrArg (List.map (Option.map (bytesOf codec))) hsome
      rw [List.map_map, List.map_map] at hcongr
      rw [List.map_map]
      exact hcongr
    rw [hmap] at hread
    apply List.map_injective_iff.mpr (Option.some_injective Bytes)
    rw [List.map_map]
    exact hread
  have hall : ∀ v ∈ ks.filterMap (lookups map), Storable codec slot v := by
    intro v hv
    obtain ⟨key, -, hlookup⟩ := List.mem_filterMap.mp hv
    exact hstorable key v hlookup
  have hdecode : (es.mapM (fun e => decodeValue codec e.2) :
      EntityProgram (CoordMapStore 64 N σ) (List V)) = pure (ks.filterMap (lookups map)) := by
    rw [← decodeAll_eq hcodec hall, ← hbytes, List.mapM_map]
    rfl
  rw [hdecode, values_of_lists hks]
  exact ensures_pure.mpr ⟨rfl, ⟨f, hback', henc⟩, hstorable⟩

theorem map_clearEntries (hfail : NeverFails σ) (hN : 2 ≤ N)
    (h : Carries fromChar codec slot st map) :
    Ensures (MapEntityStore.clearEntries : EntityProgram (CoordMapStore 64 N σ) Unit) st
      (fun _ st' => Carries fromChar codec slot st' (∅ : HashMap V)) fun _ _ => False := by
  obtain ⟨f, hback, -⟩ := h.backs
  apply (onMap_spec (clearChecked_backs hfail (by omega) hback)).mono
  · exact fun _ st' hback' => carries_empty hback'
  · exact fun e st' he => he.elim fun _ he => he.2

theorem map_replaceLoop (hfail : NeverFails σ) (hN : 2 ≤ N) (hapart : Apart (placeOf fromChar N))
    {entries : List (String × V)} {encoded : List (CoordPath N × Value)}
    (hprepared : List.Forall₂ (Prepared fromChar codec slot) entries encoded)
    (hstorable : ∀ e ∈ entries, Storable codec slot e.2)
    (h : Carries fromChar codec slot st map) :
    Ensures (encoded.foldlM (fun _ e => do
        let _ ← MapEntityStore.onMap .replace (putPath e.1 e.2.val)
        pure ()) ()) st
      (fun _ st' => Carries fromChar codec slot st'
        (entries.foldl (fun map e => map.insert e.1 e.2) map))
      fun e st' => NoRoomPanic slot e st' ∧
        ∃ map' : HashMap V, Carries fromChar codec slot st' map' := by
  induction hprepared generalizing st map with
  | nil => exact ensures_pure.mpr h
  | @cons e x entries encoded hx _ ih =>
    obtain ⟨hp, hb, hlen⟩ := hx
    obtain ⟨hvalue, hrest⟩ := List.forall_mem_cons.mp hstorable
    rw [List.foldlM_cons, bind_assoc]
    refine (map_putPath hfail (by omega) hapart h hp hvalue hb hlen .replace).bind ?_ ?_
    · intro _ st' hdone
      rw [pure_bind]
      exact ih hrest hdone.2
    · exact fun e st' he => ⟨he.1, _, he.2⟩

theorem map_replaceEntries (hfail : NeverFails σ) (hN : 2 ≤ N)
    (hapart : Apart (placeOf fromChar N)) (h : Carries fromChar codec slot st map)
    {entries : List (String × V)}
    (hentries : ∀ e ∈ entries, placeOf fromChar N e.1 ≠ none ∧ Storable codec slot e.2) :
    Ensures (MapEntityStore.replaceEntries fromChar codec entries) st
      (fun _ st' => Carries fromChar codec slot st' (insertAll entries))
      fun e st' => NoRoomPanic slot e st' ∧
        ∃ map' : HashMap V, Carries fromChar codec slot st' map' := by
  obtain ⟨f, hback, -⟩ := h.backs
  obtain ⟨encoded, hencoded, hprepared⟩ := prepare_eq (σ := CoordMapStore 64 N σ) hentries
  rw [MapEntityStore.replaceEntries, hencoded, pure_bind]
  refine (onMap_spec (clearChecked_backs hfail (by omega) hback)).bind ?_
    fun e st' he => he.elim fun _ he => he.2.elim
  intro _ st' hback'
  exact map_replaceLoop hfail hN hapart hprepared (fun e he => (hentries e he).2)
    (carries_empty hback')

/-- The materialized map implements the reference for values that fit a slot. -/
theorem map_implements (slot : ℕ) (hfail : NeverFails σ) (hcodec : RoundTrips codec) (hN : 2 ≤ N)
    (hapart : Apart (placeOf fromChar N)) :
    Implements (mapEntityStore N σ fromChar codec) (Carries fromChar codec slot)
      (fun e => placeOf fromChar N e.1 ≠ none ∧ Storable codec slot e.2) (NoRoomPanic slot) where
  get h key := map_getEntry hfail hcodec hN h key
  insert h _ _ hentry := map_insertEntry hfail hcodec hN hapart h hentry.1 hentry.2
  remove h key := map_removeEntry hfail hcodec hN hapart h key
  containsKey h key := map_containsEntry hfail hN h key
  len h := map_entryCount hapart h
  values h := (map_allValues hfail hcodec hN hapart h).andThen
    fun _ _ hvs => ensures_pure.mpr hvs
  clear h := map_clearEntries hfail hN h
  replaceFrom h _ hentries := map_replaceEntries hfail hN hapart h hentries

end

/-- Association lists as a coordinate space. -/
instance : CoordSpace (AList fun _ : CoordPath N => V) N V where
  new := ∅
  atPath s p := s.lookup p
  placePath s p v := (s.lookup p, s.insert p v)
  vacatePath s p := (s.lookup p, s.erase p)
  len s := s.entries.length
  iterTree s := s.entries.map fun e => (e.1, e.2)
  clear _ := ∅

theorem alist_finiteMapSpace : FiniteMapSpace (AList fun _ : CoordPath N => V) where
  new := funext fun p => AList.lookup_empty p
  place s p v := by
    refine ⟨rfl, funext fun q => ?_⟩
    by_cases hq : q = p
    · subst hq
      rw [Function.update_self]
      exact AList.lookup_insert s
    · rw [Function.update_of_ne hq]
      exact AList.lookup_insert_ne hq
  vacate s p := by
    refine ⟨rfl, funext fun q => ?_⟩
    by_cases hq : q = p
    · subst hq
      rw [Function.update_self]
      exact AList.lookup_erase q s
    · rw [Function.update_of_ne hq]
      exact AList.lookup_erase_ne hq
  nodup s := by
    change ((s.entries.map fun e => (e.1, e.2)).map Prod.fst).Nodup
    rw [List.map_map]
    exact s.nodupKeys
  mem s p v := by
    change (p, v) ∈ s.entries.map (fun e => (e.1, e.2)) ↔ s.lookup p = some v
    rw [List.mem_map]
    constructor
    · intro he
      obtain ⟨e, he, heq⟩ := he
      cases heq
      exact AList.mem_lookup_iff.mpr he
    · intro hlookup
      exact ⟨⟨p, v⟩, AList.mem_lookup_iff.mp hlookup, rfl⟩
  len s := (List.length_map _).symm
  clear _ := funext fun p => AList.lookup_empty p

def byteCodec : Codec UInt8 where
  toAllocvec b := some ⟨[b], by rw [List.length_singleton]; decide⟩
  fromBytes bytes := bytes.head?

theorem byteCodec_roundTrips : RoundTrips byteCodec := by
  intro v b hb
  cases hb
  rfl

end Chton.EntitySimulations
