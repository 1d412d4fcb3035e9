import Chton.Replacements

/-!
# The room that entities take

The materialized map takes room for the keys put since it was last emptied. It finds no room
for an insertion only if these keys and the new ones need more than there is.
-/

namespace Chton.EntityRooms
open OutcomePrograms CallRuns ByteRegions Origins TreeStrategyProgram CoordMapProgram
open LayoutContents AreaNeeds StringKeys KeyedMaps StoreRuns MapServices StoreSpans EntityStores
open EntityReference EntitySimulations Replacements

variable {V σ : Type} {N : ℕ} {fromChar : Char → Option Coord} {codec : Codec V} {slot : ℕ}

/-- The keys put since the store was last emptied, after one more call. -/
def EntityCall.taken (keys : List String) : EntityCall V → List String
  | .insert key _ => keys ++ [key]
  | .clear => []
  | .replaceFrom entries => entries.map Prod.fst
  | _ => keys

def placesOf (fromChar : Char → Option Coord) (N : ℕ) (keys : List String) : List (CoordPath N) :=
  keys.filterMap (placeOf fromChar N)

theorem placesOf_concat {keys : List String} {key : String} {p : CoordPath N}
    (hp : placeOf fromChar N key = some p) :
    placesOf fromChar N (keys ++ [key]) = placesOf fromChar N keys ++ [p] := by
  rw [placesOf, List.filterMap_append, List.filterMap_cons_some hp]
  rfl

section
variable {I : σ → Prop}

theorem probe_preserves (key : String) : Preserves I (probe fromChar N key) := by
  rw [probe]
  split
  · exact .pure _
  · exact .pure none
  · exact .throw _

theorem decodeValue_preserves (bytes : Bytes) : Preserves I (decodeValue codec bytes) := by
  rw [decodeValue]
  split
  · exact .pure _
  · exact .throw _

theorem decodePrev_preserves (prev : Option Bytes) : Preserves I (decodePrev codec prev) := by
  cases prev with
  | none => exact .pure none
  | some bytes => exact (decodeValue_preserves bytes).bind fun v => .pure (some v)

end

variable [ByteOrigin σ] {st : CoordMapStore 64 N σ} {ps : List (CoordPath N)} {map : HashMap V}

variable (fromChar codec) in
theorem plain_preserves (hfail : NeverFails σ) (hN : 0 < N) {c : EntityCall V}
    (hc : ¬ EntityCall.Inserts c) (hclear : c ≠ .clear) :
    Preserves (Spans slot ps) (c.program (mapEntityStore N σ fromChar codec)) := by
  have hget (p : CoordPath N) : Preserves (Spans slot ps)
      (MapEntityStore.onMap .get (getPath p) : EntityProgram (CoordMapStore 64 N σ) _) :=
    .focus (fun st h => spans_program hfail hN h (.map (.get p)) .value rfl) _
  have hremove (p : CoordPath N) : Preserves (Spans slot ps)
      (MapEntityStore.onMap .remove (removePath p) : EntityProgram (CoordMapStore 64 N σ) _) :=
    .focus (fun st h => spans_program hfail hN h (.map (.remove p)) .value rfl) _
  have hiter : Preserves (Spans slot ps)
      (MapEntityStore.onMap .iter entries : EntityProgram (CoordMapStore 64 N σ) _) :=
    .focus (fun st h => spans_program hfail hN h .iter .entries rfl) _
  cases c with
  | get key =>
    refine ((probe_preserves key).bind fun path => ?_).map _
    cases path with
    | none => exact .pure none
    | some p => exact (hget p).bind decodePrev_preserves
  | remove key =>
    refine ((probe_preserves key).bind fun path => ?_).map _
    cases path with
    | none => exact .pure none
    | some p => exact (hremove p).bind decodePrev_preserves
  | containsKey key =>
    refine ((probe_preserves key).bind fun path => ?_).map _
    cases path with
    | none => exact .pure false
    | some p => exact (hget p).bind fun v => .pure v.isSome
  | len => exact (Preserves.get.bind fun st => .pure _).map _
  | values =>
    exact ((hiter.bind fun es => .mapM (fun e => decodeValue_preserves e.2) es).bind
      fun vs => .pure _).map _
  | insert key value => exact absurd trivial hc
  | replaceFrom entries => exact absurd trivial hc
  | clear => exact absurd rfl hclear

variable (fromChar codec) in
theorem clear_spans (hfail : NeverFails σ) (hN : 0 < N) (h : Spans slot ps st) :
    Ensures ((EntityCall.clear : EntityCall V).program (mapEntityStore N σ fromChar codec)) st
      (fun _ st' => Spans slot [] st') fun _ st' => Spans slot [] st' := by
  rw [EntityCall.program, ensures_map]
  change Ensures (focus id (fun st _ => st) _ clearChecked) st _ _
  rw [ensures_focus]
  exact spans_program hfail hN h (.map .clear) (fun _ => .done) rfl

omit [ByteOrigin σ] in
theorem not_noRoomPanic_decode : ¬ NoRoomPanic slot .decode st := by
  rintro ⟨operation, e₀, he, rfl, -⟩
  cases he

/-- An insertion that finds no room needs more than there is, together with the keys before. -/
theorem insert_room (hfail : NeverFails σ) (hN : 0 < N) (h : Spans slot ps st) {key : String}
    {p : CoordPath N} (hp : placeOf fromChar N key = some p) {value : V}
    (hvalue : Storable codec slot value) :
    Ensures ((EntityCall.insert key value).program (mapEntityStore N σ fromChar codec)) st
      (fun _ st' => Spans slot (ps ++ [p]) st')
      fun e st' => Spans slot (ps ++ [p]) st' ∧
        (NoRoomPanic slot e st' → 2 ^ 64 ≤ areaNeed slot (ps ++ [p])) := by
  obtain ⟨b, henc, -, hlen⟩ := encodeValue_eq (σ := CoordMapStore 64 N σ) hvalue
  rw [EntityCall.program, ensures_map]
  change Ensures (MapEntityStore.insertEntry fromChar codec key value) st _ _
  rw [MapEntityStore.insertEntry, mapKeyOrPanic_eq hp, pure_bind, henc, pure_bind]
  apply (onMap_spec (putPath_room hfail hN h p b.property)).bind
  · intro prev st' hst'
    cases prev with
    | none => exact ensures_pure.mpr hst'
    | some bytes =>
      rw [decodePrev, decodeValue]
      split
      · exact ensures_pure.mpr hst'
      · exact ensures_throw.mpr ⟨hst', fun hroom => absurd hroom not_noRoomPanic_decode⟩
  · intro e st' he
    obtain ⟨_, -, hst', hneed⟩ := he
    exact ⟨hst', fun _ => (hneed hlen).2⟩

/-- Entries that fit are cut off only if they need more room than there is. -/
theorem replace_room (hfail : NeverFails σ) (hN : 0 < N) {f : PathMap N} (h : Backs slot st f)
    {entries : List (String × V)}
    (hentries : ∀ e ∈ entries, placeOf fromChar N e.1 ≠ none ∧ Storable codec slot e.2) :
    Ensures ((EntityCall.replaceFrom entries).program (mapEntityStore N σ fromChar codec)) st
      (fun _ st' => Spans slot (placesOf fromChar N (entries.map Prod.fst)) st')
      fun _ st' => Spans slot (placesOf fromChar N (entries.map Prod.fst)) st' ∧
        2 ^ 64 ≤ areaNeed slot (placesOf fromChar N (entries.map Prod.fst)) := by
  rw [EntityCall.program, ensures_map]
  apply (map_replace_spec fromChar codec hfail hN h entries).mono
  · intro _ st' hdone
    obtain ⟨encoded, hprepare, hfilled⟩ := hdone
    rw [placesOf, prepare_places hprepare]
    exact hfilled.spans hN
  · intro e st' hrefused
    rcases hrefused with ⟨hnone, -⟩ | ⟨good, bad, rest, hprepare, hgood, hbad, -, hspans⟩
    · obtain ⟨e, he, hplace | hbytes⟩ := prepare_none hnone
      · exact absurd hplace (hentries e he).1
      · obtain ⟨b, hb, -⟩ := (hentries e he).2
        cases hbytes.symm.trans hb
    · have hplaces : (good ++ bad :: rest).map Prod.fst =
          (good ++ [bad]).map Prod.fst ++ rest.map Prod.fst := by
        rw [← List.map_append, List.append_assoc, List.singleton_append]
      have hlen : bad.2.val.length ≤ slot - lengthBytes := by
        obtain ⟨e, he, hencoded⟩ :=
          mem_prepare hprepare (List.mem_append_right _ List.mem_cons_self)
        obtain ⟨-, b, hb, hlen⟩ := hentries e he
        rwa [← Option.some.inj (hb.symm.trans hencoded)]
      have hneed : 2 ^ 64 ≤ areaNeed slot ((good ++ [bad]).map Prod.fst) := by
        by_contra hlt
        refine hbad (hgood.concat.mpr ⟨hlen, ?_⟩)
        rw [List.map_append] at hlt
        exact Nat.lt_of_not_le hlt
      rw [placesOf, prepare_places hprepare, hplaces]
      exact ⟨hspans.mono fun p hp => List.mem_append_left _ hp, hneed.trans (areaNeed_mono _ _)⟩

/-- One call on the materialized map, with the room that it takes. -/
theorem call_room (hfail : NeverFails σ) (hcodec : RoundTrips codec) (hN : 2 ≤ N)
    (hapart : Apart (placeOf fromChar N)) {keys : List String}
    (h : Carries fromChar codec slot st map) (hs : Spans slot (placesOf fromChar N keys) st)
    (c : EntityCall V)
    (hc : ∀ e ∈ EntityCall.inserted c, placeOf fromChar N e.1 ≠ none ∧ Storable codec slot e.2) :
    Ensures (c.program (mapEntityStore N σ fromChar codec)) st
      (fun a st' => (a = (EntityCall.onMap c map).1 ∧
          Carries fromChar codec slot st' (EntityCall.onMap c map).2) ∧
        Spans slot (placesOf fromChar N (EntityCall.taken keys c)) st')
      fun e st' => (NoRoomPanic slot e st' ∧ EntityCall.Inserts c ∧
          ∃ map' : HashMap V, Carries fromChar codec slot st' map') ∧
        Spans slot (placesOf fromChar N (EntityCall.taken keys c)) st' ∧
        2 ^ 64 ≤ areaNeed slot (placesOf fromChar N (EntityCall.taken keys c)) := by
  have hpos : 0 < N := Nat.lt_of_lt_of_le Nat.two_pos hN
  have hanswers := (map_implements slot hfail hcodec hN hapart).answers h c hc
  have hplain {K : CoordMapStore 64 N σ → Prop} (hins : ¬ EntityCall.Inserts c)
      (hk : Ensures (c.program (mapEntityStore N σ fromChar codec)) st (fun _ st' => K st')
        fun _ st' => K st') :
      Ensures (c.program (mapEntityStore N σ fromChar codec)) st
        (fun a st' => (a = (EntityCall.onMap c map).1 ∧
          Carries fromChar codec slot st' (EntityCall.onMap c map).2) ∧ K st')
        fun _ _ => False :=
    (hanswers.and hk).mono (fun _ _ hdone => hdone) fun _ _ he => hins he.1.2.1
  cases c with
  | insert key value =>
    obtain ⟨hkey, hvalue⟩ := hc _ List.mem_cons_self
    obtain ⟨p, hp⟩ := Option.ne_none_iff_exists'.mp hkey
    rw [EntityCall.taken, placesOf_concat hp]
    exact (hanswers.and (insert_room hfail hpos hs hp hvalue)).mono (fun _ _ hdone => hdone)
      fun _ _ he => ⟨he.1, he.2.1, he.2.2 he.1.1⟩
  | replaceFrom entries =>
    obtain ⟨f, hback, -⟩ := h.backs
    exact (hanswers.and (replace_room hfail hpos hback hc)).mono (fun _ _ hdone => hdone)
      fun _ _ he => he
  | clear =>
    exact (hplain id (clear_spans fromChar codec hfail hpos hs)).mono (fun _ _ hdone => hdone)
      fun _ _ hf => hf.elim
  | _ =>
    exact (hplain id (plain_preserves fromChar codec hfail hpos id (by simp) st hs)).mono
      (fun _ _ hdone => hdone) fun _ _ hf => hf.elim

end Chton.EntityRooms
