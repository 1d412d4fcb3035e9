import Chton.EntityRooms

/-!
# Entity stores that refuse entries

A key without a path, a value without an encoding or with one too long for a slot, and a
lack of room make an insertion panic. The stores go on after that: what they answer in any
run is what a hash map answers that refuses some insertions. A refused `insert` changes
nothing. A refused `replace_from` changes nothing if the store prepares all entries before it
empties itself and some entry cannot be prepared; otherwise it leaves the entries before the
one refused.
-/

namespace Chton.EntityRefusals
open OutcomePrograms CallRuns ByteRegions Origins TreeStrategyProgram CoordMapProgram
open AreaNeeds StringKeys KeyedMaps StoreRuns MapServices StoreSpans EntityStores
open EntityReference EntitySimulations EntityRooms Replacements

variable {V S σ : Type} {N : ℕ}

structure Limits (V : Type) where
  /-- An entry that is not refused for itself. -/
  Fits : String × V → Prop
  /-- Entries that are refused before the store is emptied. -/
  Early : List (String × V) → Prop
  /-- Entries that an emptied store takes one after the other. -/
  Holds : List (String × V) → Prop
  /-- The panics for lack of room for these keys. -/
  Full : List String → EntityPanic → Prop

def Limits.Accepts (l : Limits V) : EntityCall V → Prop
  | .insert key value => l.Fits (key, value)
  | .replaceFrom entries => l.Holds entries
  | _ => True

structure Ledger (V : Type) where
  map : HashMap V
  keys : List String

def Ledger.blank : Ledger V := ⟨∅, []⟩

def Ledger.after (t : Ledger V) (c : EntityCall V) : Ledger V :=
  ⟨(EntityCall.onMap c t.map).2, EntityCall.taken t.keys c⟩

/-- One call on a hash map that refuses some insertions. -/
inductive Serves (l : Limits V) : Ledger V → EntityCall V × EntityReply V → Ledger V → Prop
  | answered {c : EntityCall V} {t : Ledger V} (h : l.Accepts c) :
    Serves l t (c, .ok (EntityCall.onMap c t.map).1) (t.after c)
  | refused {key : String} {value : V} {e : EntityPanic} {t : Ledger V}
    (h : ¬ l.Fits (key, value)) : Serves l t (.insert key value, .error e) t
  | full {key : String} {value : V} {e : EntityPanic} {t : Ledger V}
    (h : l.Full (t.keys ++ [key]) e) :
    Serves l t (.insert key value, .error e) ⟨t.map, t.keys ++ [key]⟩
  | kept {entries : List (String × V)} {e : EntityPanic} {t : Ledger V} (h : l.Early entries) :
    Serves l t (.replaceFrom entries, .error e) t
  /-- Refused while the emptied store is filled. -/
  | cut {good rest : List (String × V)} {bad : String × V} {e : EntityPanic} {t : Ledger V}
    (hlate : ¬ l.Early (good ++ bad :: rest)) (hgood : l.Holds good)
    (hbad : ¬ l.Holds (good ++ [bad])) :
    Serves l t (.replaceFrom (good ++ bad :: rest), .error e)
      ⟨insertAll good, (good ++ [bad]).map Prod.fst⟩

/-- The state stands for what the call leaves of the hash map. -/
def Matches (R : σ → Ledger V → Prop) (l : Limits V) (t : Ledger V) (c : EntityCall V)
    (r : EntityReply V) (s : σ) : Prop :=
  ∃ t', Serves l t (c, r) t' ∧ R s t'

/-- A store whose states stand for hash maps serves every call within its limits. -/
def ServesAll (store : EntityStore V σ) (R : σ → Ledger V → Prop) (l : Limits V) : Prop :=
  ∀ c s t, R s t →
    Matches R l t c (EntityCall.perform store c s).1 (EntityCall.perform store c s).2

section
variable {store : EntityStore V σ} {R : σ → Ledger V → Prop} {l : Limits V} {s : σ} {t : Ledger V}

theorem matches_of_ensures {c : EntityCall V}
    (h : Ensures (c.program store) s (fun a s' => Matches R l t c (.ok a) s')
      fun e s' => Matches R l t c (.error e) s') :
    Matches R l t c (EntityCall.perform store c s).1 (EntityCall.perform store c s).2 := by
  rcases answer_cases h with ⟨a, s', hanswer, ha⟩ | ⟨e, s', hanswer, he⟩
  · rw [EntityCall.perform, hanswer]
    exact ha
  · rw [EntityCall.perform, hanswer]
    exact he

/-- A call that puts nothing in is answered; it remains to look at the insertions. -/
theorem servesAll_of_insertions
    (hplain : ∀ {s t}, R s t → ∀ c : EntityCall V, ¬ EntityCall.Inserts c →
      Ensures (c.program store) s
        (fun a s' => a = (EntityCall.onMap c t.map).1 ∧ R s' (t.after c)) fun _ _ => False)
    (hinsert : ∀ {s t}, R s t → ∀ key value,
      Ensures ((EntityCall.insert key value).program store) s
        (fun a s' => Matches R l t (.insert key value) (.ok a) s')
        fun e s' => Matches R l t (.insert key value) (.error e) s')
    (hreplace : ∀ {s t}, R s t → ∀ entries,
      Ensures ((EntityCall.replaceFrom entries).program store) s
        (fun a s' => Matches R l t (.replaceFrom entries) (.ok a) s')
        fun e s' => Matches R l t (.replaceFrom entries) (.error e) s') :
    ServesAll store R l := by
  intro c s t hR
  apply matches_of_ensures
  have hother (hins : ¬ EntityCall.Inserts c) (hl : l.Accepts c) :
      Ensures (c.program store) s (fun a s' => Matches R l t c (.ok a) s')
        fun e s' => Matches R l t c (.error e) s' := by
    apply (hplain hR c hins).mono
    · intro a s' ha
      obtain ⟨rfl, hR'⟩ := ha
      exact ⟨_, .answered hl, hR'⟩
    · exact fun _ _ hf => hf.elim
  cases c with
  | insert key value => exact hinsert hR key value
  | replaceFrom entries => exact hreplace hR entries
  | _ => exact hother id trivial

end

/-- The hash map takes everything. -/
def memoryLimits (V : Type) : Limits V :=
  ⟨fun _ => True, fun _ => False, fun _ => True, fun _ _ => False⟩

theorem memory_servesAll :
    ServesAll (memoryEntityStore V) (fun map t => map = t.map) (memoryLimits V) := by
  intro c _ t hmap
  subst hmap
  rw [memory_perform]
  refine ⟨_, .answered ?_, rfl⟩
  cases c <;> trivial

variable {fromChar : Char → Option Coord}

/-- The coordinate space refuses keys without a path. -/
def coordLimits (V : Type) (fromChar : Char → Option Coord) (N : ℕ) : Limits V where
  Fits := Representable fromChar N
  Early _ := False
  Holds entries := ∀ e ∈ entries, Representable fromChar N e
  Full _ _ := False

section
variable {S : Type} [CoordSpace S N V] {space : S}

theorem coord_insert_refuses {key : String} (h : placeOf fromChar N key = none) (value : V) :
    Ensures (CoordEntityStore.insertEntry fromChar key value) space (fun _ _ => False)
      fun _ space' => space' = space := by
  obtain ⟨cause, hcause⟩ := mapKeyOrPanic_none (σ := S) h
  rw [CoordEntityStore.insertEntry, hcause, throw_bind, ensures_throw]

theorem coord_servesAll (hspace : FiniteMapSpace S) (hN : 2 ≤ N)
    (hapart : Apart (placeOf fromChar N)) :
    ServesAll (coordEntityStore S fromChar) (fun space t => Mirrors fromChar space t.map)
      (coordLimits V fromChar N) := by
  have himplements := coord_implements (V := V) hspace hN hapart
  apply servesAll_of_insertions
  · intro space t hmap c hins
    have hnone : ∀ e ∈ EntityCall.inserted c, placeOf fromChar N e.1 ≠ none := by
      cases c <;> simp_all [EntityCall.inserted, EntityCall.Inserts]
    exact (himplements.answers hmap c hnone).mono (fun _ _ hdone => hdone) fun _ _ he => he.1
  · intro space t hmap key value
    rw [EntityCall.program, ensures_map]
    by_cases hkey : placeOf fromChar N key = none
    · apply (coord_insert_refuses hkey value).mono
      · exact fun _ _ hf => hf.elim
      · intro e space' hsame
        subst hsame
        exact ⟨t, .refused fun hrep => hrep hkey, hmap⟩
    · apply (coord_insertEntry hspace hapart hmap hkey value).mono
      · intro prev space' hdone
        obtain ⟨rfl, hmap'⟩ := hdone
        exact ⟨_, .answered (c := .insert key value) hkey, hmap'⟩
      · exact fun _ _ hf => hf.elim
  · intro space t hmap entries
    rw [EntityCall.program, ensures_map]
    apply (coord_replace_spec hspace hapart space entries).mono
    · intro _ space' hdone
      exact ⟨_, .answered (c := .replaceFrom entries) hdone.1, hdone.2⟩
    · intro e space' hcut
      obtain ⟨good, bad, rest, rfl, hgood, hbad, hmap'⟩ := hcut
      refine ⟨_, .cut id hgood ?_, hmap'⟩
      intro hall
      exact hbad (hall bad (List.mem_append_right _ List.mem_cons_self))

end

variable {codec : Codec V} {slot : ℕ}

/-- The panic of a call with an allocation that would pass the end of `u64`. -/
def RoomPanic (slot : ℕ) (e : EntityPanic) : Prop :=
  ∃ operation bump, e = .failed operation (.binding (.origin (.outOfBounds bump (2 ^ 64 - 1)))) ∧
    2 ^ 64 ≤ bump + max nodeSpan slot

theorem roomPanic_of_noRoom {slot : ℕ} {e : EntityPanic} {st : CoordMapStore 64 N σ}
    (h : NoRoomPanic slot e st) : RoomPanic slot e := by
  obtain ⟨operation, e₀, rfl, rfl, hfull⟩ := h
  exact ⟨operation, _, rfl, hfull⟩

/-- The materialized map refuses keys without a path, values without an encoding that fits
a slot, and what finds no room; it prepares all entries before it empties itself. -/
def mapLimits (fromChar : Char → Option Coord) (N : ℕ) (codec : Codec V) (slot : ℕ) :
    Limits V where
  Fits e := placeOf fromChar N e.1 ≠ none ∧ Storable codec slot e.2
  Early entries := prepare fromChar N codec entries = none
  Holds entries := ∃ encoded, prepare fromChar N codec entries = some encoded ∧
    Fitting slot encoded
  Full keys e := RoomPanic slot e ∧ 2 ^ 64 ≤ areaNeed slot (placesOf fromChar N keys)

section
variable {entries : List (String × V)} {e : String × V}
  {encoded : List (CoordPath N × Value)} {x : CoordPath N × Value}

theorem prepare_split {good rest : List (CoordPath N × Value)} {bad : CoordPath N × Value}
    (h : prepare fromChar N codec entries = some (good ++ bad :: rest)) :
    ∃ good' bad' rest', entries = good' ++ bad' :: rest' ∧
      prepare fromChar N codec good' = some good ∧
      prepare fromChar N codec (good' ++ [bad']) = some (good ++ [bad]) := by
  induction good generalizing entries with
  | nil =>
    cases entries with
    | nil => cases h
    | cons e entries =>
      obtain ⟨x, xs, hx, -, heq⟩ := prepare_cons_iff.mp h
      cases heq
      exact ⟨[], e, entries, rfl, rfl, prepare_cons_iff.mpr ⟨_, [], hx, rfl, rfl⟩⟩
  | cons y good ih =>
    cases entries with
    | nil => cases h
    | cons e entries =>
      obtain ⟨x, xs, hx, hxs, heq⟩ := prepare_cons_iff.mp h
      cases heq
      obtain ⟨good', bad', rest', rfl, hgood, hbad⟩ := ih hxs
      exact ⟨e :: good', bad', rest', rfl, prepare_cons_iff.mpr ⟨_, _, hx, hgood, rfl⟩,
        prepare_cons_iff.mpr ⟨_, _, hx, hbad, rfl⟩⟩

end

section
variable [ByteOrigin σ] {st : CoordMapStore 64 N σ} {map : HashMap V}

theorem map_insert_refuses (hfail : NeverFails σ) (hN : 0 < N)
    (h : Carries fromChar codec slot st map) {key : String} {value : V}
    (hfits : ¬ (mapLimits fromChar N codec slot).Fits (key, value)) :
    Ensures (MapEntityStore.insertEntry fromChar codec key value) st (fun _ _ => False)
      fun _ st' => st' = st := by
  rw [MapEntityStore.insertEntry]
  cases hp : placeOf fromChar N key with
  | none =>
    obtain ⟨cause, hcause⟩ := mapKeyOrPanic_none (σ := CoordMapStore 64 N σ) hp
    rw [hcause, throw_bind, ensures_throw]
  | some p =>
    rw [mapKeyOrPanic_eq hp, pure_bind, encodeValue]
    cases hb : codec.toAllocvec value with
    | none => rw [throw_bind, ensures_throw]
    | some b =>
      obtain ⟨f, hback, hencodes⟩ := h.backs
      have hlong : ¬ b.val.length ≤ slot - lengthBytes := by
        intro hlen
        exact hfits ⟨by simp [hp], b, hb, hlen⟩
      rw [pure_bind]
      apply (onMap_spec (putPath_backs hfail hN hback p b.property)).bind
      · exact fun _ _ hdone => absurd hdone.1 hlong
      · intro e st' he
        rcases he with ⟨_, -, ⟨-, hsame⟩ | ⟨hlen, -⟩⟩
        · exact hsame
        · exact absurd hlen hlong

theorem carries_prepared (hapart : Apart (placeOf fromChar N)) {entries : List (String × V)}
    {encoded : List (CoordPath N × Value)} (h : prepare fromChar N codec entries = some encoded)
    (hfit : Fitting slot encoded) (hback : Backs slot st (contentsOf encoded)) :
    Carries fromChar codec slot st (insertAll entries) := by
  refine ⟨⟨_, hback, encodes_contentsOf hapart h⟩, ?_⟩
  intro key v hlookup
  rw [lookup_insertAll, lastValue] at hlookup
  obtain ⟨e, he, rfl⟩ := Option.map_eq_some_iff.mp hlookup
  have hmem := List.mem_reverse.mp (List.mem_of_find?_eq_some he)
  obtain ⟨x, hx, hprepared⟩ := prepare_mem h hmem
  exact ⟨x.2, (prepareEntry_eq_some.mp hprepared).2, hfit.1 x hx⟩

def Books (fromChar : Char → Option Coord) (codec : Codec V) (slot : ℕ)
    (st : CoordMapStore 64 N σ) (t : Ledger V) : Prop :=
  Carries fromChar codec slot st t.map ∧ Spans slot (placesOf fromChar N t.keys) st

theorem map_insert_serves (hfail : NeverFails σ) (hcodec : RoundTrips codec) (hN : 2 ≤ N)
    (hapart : Apart (placeOf fromChar N)) {t : Ledger V} (h : Books fromChar codec slot st t)
    (key : String) (value : V) :
    Ensures ((EntityCall.insert key value).program (mapEntityStore N σ fromChar codec)) st
      (fun a st' => Matches (Books fromChar codec slot) (mapLimits fromChar N codec slot) t
        (.insert key value) (.ok a) st')
      fun e st' => Matches (Books fromChar codec slot) (mapLimits fromChar N codec slot) t
        (.insert key value) (.error e) st' := by
  have hpos : 0 < N := Nat.lt_of_lt_of_le Nat.two_pos hN
  by_cases hfits : (mapLimits fromChar N codec slot).Fits (key, value)
  · obtain ⟨p, hp⟩ := Option.ne_none_iff_exists'.mp hfits.1
    have hinsert : Ensures ((EntityCall.insert key value).program
        (mapEntityStore N σ fromChar codec)) st
        (fun a st' => a = .value (t.map.lookup key) ∧
          Carries fromChar codec slot st' (t.map.insert key value))
        fun e st' => NoRoomPanic slot e st' ∧ Carries fromChar codec slot st' t.map := by
      rw [EntityCall.program, ensures_map]
      exact (map_insertEntry hfail hcodec hN hapart h.1 hfits.1 hfits.2).mono
        (fun _ _ hdone => ⟨congrArg _ hdone.1, hdone.2⟩) fun _ _ he => he
    apply (hinsert.and (insert_room hfail hpos h.2 hp hfits.2)).mono
    · intro a st' hdone
      obtain ⟨⟨rfl, hcarries⟩, hspans⟩ := hdone
      rw [← placesOf_concat hp] at hspans
      exact ⟨_, .answered (c := .insert key value) hfits, hcarries, hspans⟩
    · intro e st' he
      obtain ⟨⟨hroom, hcarries⟩, hspans, hneed⟩ := he
      rw [← placesOf_concat hp] at hspans hneed
      exact ⟨_, .full ⟨roomPanic_of_noRoom hroom, hneed hroom⟩, hcarries, hspans⟩
  · rw [EntityCall.program, ensures_map]
    apply (map_insert_refuses hfail hpos h.1 hfits).mono
    · exact fun _ _ hf => hf.elim
    · intro e st' hsame
      subst hsame
      exact ⟨t, .refused hfits, h⟩

theorem map_replace_serves (hfail : NeverFails σ) (hN : 2 ≤ N)
    (hapart : Apart (placeOf fromChar N)) {t : Ledger V} (h : Books fromChar codec slot st t)
    (entries : List (String × V)) :
    Ensures ((EntityCall.replaceFrom entries).program (mapEntityStore N σ fromChar codec)) st
      (fun a st' => Matches (Books fromChar codec slot) (mapLimits fromChar N codec slot) t
        (.replaceFrom entries) (.ok a) st')
      fun e st' => Matches (Books fromChar codec slot) (mapLimits fromChar N codec slot) t
        (.replaceFrom entries) (.error e) st' := by
  have hpos : 0 < N := Nat.lt_of_lt_of_le Nat.two_pos hN
  obtain ⟨f, hback, -⟩ := h.1.backs
  rw [EntityCall.program, ensures_map]
  apply (map_replace_spec fromChar codec hfail hpos hback entries).mono
  · intro _ st' hdone
    obtain ⟨encoded, hprepare, hfilled⟩ := hdone
    refine ⟨_, .answered (c := .replaceFrom entries) ⟨encoded, hprepare, hfilled.fitting⟩,
      carries_prepared hapart hprepare hfilled.fitting hfilled.backs, ?_⟩
    change Spans slot (placesOf fromChar N (entries.map Prod.fst)) st'
    rw [placesOf, prepare_places hprepare]
    exact hfilled.spans hpos
  · intro e st' he
    rcases he with ⟨hprepare, hsame⟩ | ⟨good, bad, rest, hprepare, hgood, hbad, hback', hspans⟩
    · subst hsame
      exact ⟨t, .kept hprepare, h⟩
    · obtain ⟨good', bad', rest', rfl, hprepared, hprepared'⟩ := prepare_split hprepare
      refine ⟨_, .cut ?_ ⟨good, hprepared, hgood⟩ ?_,
        carries_prepared hapart hprepared hgood hback', ?_⟩
      · intro hearly
        cases hearly.symm.trans hprepare
      · intro hholds
        obtain ⟨encoded, hencoded, hfit⟩ := hholds
        cases hprepared'.symm.trans hencoded
        exact hbad hfit
      · rw [placesOf, prepare_places hprepared']
        exact hspans

theorem map_servesAll (hfail : NeverFails σ) (hcodec : RoundTrips codec) (hN : 2 ≤ N)
    (hapart : Apart (placeOf fromChar N)) :
    ServesAll (mapEntityStore N σ fromChar codec) (Books fromChar codec slot)
      (mapLimits fromChar N codec slot) := by
  apply servesAll_of_insertions
  · intro st t h c hins
    have hnone : ∀ e ∈ EntityCall.inserted c,
        placeOf fromChar N e.1 ≠ none ∧ Storable codec slot e.2 := by
      cases c <;> simp_all [EntityCall.inserted, EntityCall.Inserts]
    apply (call_room hfail hcodec hN hapart h.1 h.2 c hnone).mono
    · exact fun _ _ hdone => ⟨hdone.1.1, hdone.1.2, hdone.2⟩
    · exact fun _ _ he => hins he.1.2.1
  · exact fun h key value => map_insert_serves hfail hcodec hN hapart h key value
  · exact fun h entries => map_replace_serves hfail hN hapart h entries

end

/-- What any calls do to the three stores, whatever their keys and values. -/
structure Refusing [CoordSpace S N V] [ByteOrigin σ] (fromChar : Char → Option Coord)
    (codec : Codec V) (slot : ℕ) (space : S) (st : CoordMapStore 64 N σ)
    (cs : List (EntityCall V)) : Prop where
  memory : ∃ t, Allowed (Serves (memoryLimits V)) .blank
      (cs.zip (run (EntityCall.perform (memoryEntityStore V)) cs ∅).1) t ∧
    (run (EntityCall.perform (memoryEntityStore V)) cs ∅).2 = t.map
  coord : ∃ t, Allowed (Serves (coordLimits V fromChar N)) .blank
      (cs.zip (run (EntityCall.perform (coordEntityStore S fromChar)) cs space).1) t ∧
    Mirrors fromChar (run (EntityCall.perform (coordEntityStore S fromChar)) cs space).2 t.map
  map : ∃ t, Allowed (Serves (mapLimits fromChar N codec slot)) .blank
      (cs.zip (run (EntityCall.perform (mapEntityStore N σ fromChar codec)) cs st).1) t ∧
    Carries fromChar codec slot
      (run (EntityCall.perform (mapEntityStore N σ fromChar codec)) cs st).2 t.map

theorem refusing_runs [CoordSpace S N V] [ByteOrigin σ] (hspace : FiniteMapSpace S)
    (hinj : ∀ c d x, fromChar c = some x → fromChar d = some x → c = d)
    (hcodec : RoundTrips codec) (hfail : NeverFails σ) (hN : 2 ≤ N) {o : σ}
    (ho : ByteOrigin.bytes o = []) (d : SlotSize) :
    ∃ st : CoordMapStore 64 N σ, CoordMapStore.new o d.val = .ok st ∧
      ∀ cs : List (EntityCall V),
        Refusing fromChar codec d.val (CoordSpace.new : S) st cs := by
  have hapart := places_apart hinj hN
  have hpos : 0 < N := Nat.lt_of_lt_of_le Nat.two_pos hN
  obtain ⟨st, hnew, hback⟩ := backs_new (N := N) hpos ho d
  obtain ⟨st₀, hnew₀, hspans⟩ := spans_new (N := N) hpos ho d
  cases hnew.symm.trans hnew₀
  refine ⟨st, hnew, ?_⟩
  intro cs
  have hblank : Books fromChar codec d.val st (.blank : Ledger V) := ⟨carries_empty hback, hspans⟩
  constructor
  · exact allowed_of_run memory_servesAll (t := .blank) rfl cs
  · exact allowed_of_run (coord_servesAll hspace hN hapart) (t := .blank)
      (mirrors_empty hspace.new) cs
  · obtain ⟨t, hallowed, hcarries, -⟩ :=
      allowed_of_run (map_servesAll hfail hcodec hN hapart) hblank cs
    exact ⟨t, hallowed, hcarries⟩

theorem refusing_runs_bytes :
    ∃ st : CoordMapStore 64 2 IdealOrigin, CoordMapStore.new ⟨[]⟩ 32 = .ok st ∧
      ∀ cs : List (EntityCall UInt8), Refusing hangul byteCodec 32
        (CoordSpace.new : AList fun _ : CoordPath 2 => UInt8) st cs :=
  refusing_runs alist_finiteMapSpace hangul_inj byteCodec_roundTrips
    IdealOrigin.neverFails (by decide) rfl ⟨32, by decide⟩

end Chton.EntityRefusals
