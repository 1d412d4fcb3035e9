import Chton.EntitySimulations
import Chton.StoreSpans

/-!
# Replacing all entries

Both stores empty themselves before they take the new entries one by one. An entry that is
refused then ends the call with the entries before it in place of the old contents. The
coordinate store finds out about a key without a path in that loop; the materialized map
encodes all keys and values first, and finds out in the loop about a value that does not
fit a slot or has no room.
-/

namespace Chton.Replacements
open OutcomePrograms CallRuns ByteRegions Origins TreeStrategyProgram CoordMapProgram
open StoreLayouts StoreLayouts.Layout MapUpdates LayoutContents AreaNeeds
open StringKeys KeyedMaps StoreRuns MapServices StoreSpans EntityStores EntityReference
open EntitySimulations

variable {V S σ : Type} {N : ℕ} {fromChar : Char → Option Coord} {codec : Codec V} {slot : ℕ}

section
variable [CoordSpace S N V] {space : S} {entries : List (String × V)}

def Representable (fromChar : Char → Option Coord) (N : ℕ) (e : String × V) : Prop :=
  placeOf fromChar N e.1 ≠ none

theorem mapKeyOrPanic_none {key : String} (h : placeOf fromChar N key = none) :
    ∃ e, (mapKeyOrPanic fromChar N key : EntityProgram σ _) = throw e := by
  rw [mapKeyOrPanic]
  cases hpath : strToCoordpath fromChar N key with
  | ok p => cases h.symm.trans (placeOf_eq_some.mpr hpath)
  | error e =>
    cases e with
    | err e => exact ⟨_, rfl⟩
    | panic cause => exact ⟨_, rfl⟩

/-- A key that is refused ends the call with the entries before it. -/
theorem coord_replace_spec (hspace : FiniteMapSpace S) (hapart : Apart (placeOf fromChar N))
    (space : S) (entries : List (String × V)) :
    Ensures (CoordEntityStore.replaceEntries fromChar entries) space
      (fun _ space' => (∀ e ∈ entries, Representable fromChar N e) ∧
        Mirrors fromChar space' (insertAll entries))
      fun _ space' => ∃ good bad rest, entries = good ++ bad :: rest ∧
        (∀ e ∈ good, Representable fromChar N e) ∧ ¬ Representable fromChar N bad ∧
        Mirrors fromChar space' (insertAll good) := by
  rw [CoordEntityStore.replaceEntries, ensures_bind, ensures_modify]
  refine Ensures.foldlM (fun visited _ space' =>
    (∀ e ∈ visited, Representable fromChar N e) ∧ Mirrors fromChar space' (insertAll visited))
    ⟨fun e he => absurd he List.not_mem_nil, mirrors_empty (hspace.clear space)⟩ ?_
  intro visited e rest _ space' hsplit hvisited
  cases hp : placeOf fromChar N e.1 with
  | none =>
    obtain ⟨cause, hcause⟩ := mapKeyOrPanic_none (σ := S) hp
    rw [hcause, throw_bind, ensures_throw]
    exact ⟨visited, e, rest, hsplit, hvisited.1, fun hrep => hrep hp, hvisited.2⟩
  | some p =>
    rw [mapKeyOrPanic_eq hp, pure_bind, ensures_modify, insertAll_concat]
    refine ⟨?_, hvisited.2.insert hspace hapart hp e.2⟩
    intro e' he'
    cases List.mem_append.mp he' with
    | inl he' => exact hvisited.1 e' he'
    | inr he' =>
      rw [List.mem_singleton.mp he', Representable, hp]
      exact Option.some_ne_none p

end

section
variable {entries : List (String × V)} {encoded xs ys : List (CoordPath N × Value)}

def prepareEntry (fromChar : Char → Option Coord) (N : ℕ) (codec : Codec V) (e : String × V) :
    Option (CoordPath N × Value) := do
  let path ← placeOf fromChar N e.1
  let bytes ← codec.toAllocvec e.2
  some (path, bytes)

def prepare (fromChar : Char → Option Coord) (N : ℕ) (codec : Codec V)
    (entries : List (String × V)) : Option (List (CoordPath N × Value)) :=
  entries.mapM (prepareEntry fromChar N codec)

/-- Every encoding fits a slot of an emptied store, and there is room for all of them. -/
def Fitting (slot : ℕ) (xs : List (CoordPath N × Value)) : Prop :=
  (∀ x ∈ xs, x.2.val.length ≤ slot - lengthBytes) ∧ areaNeed slot (xs.map Prod.fst) < 2 ^ 64

def contentsOf (xs : List (CoordPath N × Value)) : PathMap N :=
  xs.foldl (fun f x => Function.update f x.1 (some x.2.val)) fun _ => none

theorem contentsOf_concat (xs : List (CoordPath N × Value)) (x : CoordPath N × Value) :
    contentsOf (xs ++ [x]) = Function.update (contentsOf xs) x.1 (some x.2.val) :=
  List.foldl_concat _ _ _ _

theorem Fitting.of_append (h : Fitting slot (xs ++ ys)) : Fitting slot xs := by
  refine ⟨fun x hx => h.1 x (List.mem_append_left ys hx), ?_⟩
  have hroom := h.2
  rw [List.map_append] at hroom
  exact Nat.lt_of_le_of_lt (areaNeed_mono _ _) hroom

theorem prepareEntry_eq_some {e : String × V} {x : CoordPath N × Value} :
    prepareEntry fromChar N codec e = some x ↔
      placeOf fromChar N e.1 = some x.1 ∧ codec.toAllocvec e.2 = some x.2 := by
  rw [prepareEntry]
  cases placeOf fromChar N e.1 with
  | none => exact ⟨fun h => (nomatch h), fun h => (nomatch h.1)⟩
  | some p =>
    cases codec.toAllocvec e.2 with
    | none => exact ⟨fun h => (nomatch h), fun h => (nomatch h.2)⟩
    | some b =>
      change some (p, b) = some x ↔ some p = some x.1 ∧ some b = some x.2
      rw [Option.some.injEq, Option.some.injEq, Option.some.injEq, Prod.ext_iff]

theorem prepare_cons_iff {e : String × V} : prepare fromChar N codec (e :: entries) = some encoded ↔
    ∃ x xs, prepareEntry fromChar N codec e = some x ∧
      prepare fromChar N codec entries = some xs ∧ x :: xs = encoded := by
  simp only [prepare, List.mapM_cons, Option.bind_eq_bind, Option.bind_eq_some_iff, Option.pure_def,
    Option.some.injEq]
  constructor
  · intro h
    obtain ⟨x, hx, xs, hxs, heq⟩ := h
    exact ⟨x, xs, hx, hxs, heq⟩
  · intro h
    obtain ⟨x, xs, hx, hxs, heq⟩ := h
    exact ⟨x, hx, xs, hxs, heq⟩

theorem prepare_mem {e : String × V} (h : prepare fromChar N codec entries = some encoded) (he : e ∈ entries) :
    ∃ x ∈ encoded, prepareEntry fromChar N codec e = some x := by
  induction entries generalizing encoded with
  | nil => cases he
  | cons e' entries ih =>
    obtain ⟨x, xs, hx, hxs, rfl⟩ := prepare_cons_iff.mp h
    rcases List.mem_cons.mp he with rfl | he
    · exact ⟨x, by simp, hx⟩
    · obtain ⟨y, hy, hprepared⟩ := ih hxs he
      exact ⟨y, by simp [hy], hprepared⟩

/-- If not everything can be encoded, some entry has no path or no encoding. -/
theorem prepare_none (h : prepare fromChar N codec entries = none) :
    ∃ e ∈ entries, placeOf fromChar N e.1 = none ∨ codec.toAllocvec e.2 = none := by
  induction entries with
  | nil => cases h
  | cons e entries ih =>
    cases hplace : placeOf fromChar N e.1 with
    | none => exact ⟨e, List.mem_cons_self, .inl hplace⟩
    | some p =>
      cases hb : codec.toAllocvec e.2 with
      | none => exact ⟨e, List.mem_cons_self, .inr hb⟩
      | some b =>
        have hx : prepareEntry fromChar N codec e = some (p, b) :=
          prepareEntry_eq_some.mpr ⟨hplace, hb⟩
        have hrest : prepare fromChar N codec entries = none := by
          rw [Option.eq_none_iff_forall_ne_some]
          intro xs hxs
          cases h.symm.trans (prepare_cons_iff.mpr ⟨_, xs, hx, hxs, rfl⟩)
        obtain ⟨e', he', hnone⟩ := ih hrest
        exact ⟨e', List.mem_cons_of_mem e he', hnone⟩

theorem prepare_places (h : prepare fromChar N codec entries = some encoded) :
    (entries.map Prod.fst).filterMap (placeOf fromChar N) = encoded.map Prod.fst := by
  induction entries generalizing encoded with
  | nil =>
    cases h
    rfl
  | cons e entries ih =>
    obtain ⟨x, xs, hx, hxs, rfl⟩ := prepare_cons_iff.mp h
    rw [List.map_cons, List.filterMap_cons_some (prepareEntry_eq_some.mp hx).1, ih hxs,
      List.map_cons]

theorem mem_prepare {x : CoordPath N × Value} (h : prepare fromChar N codec entries = some encoded)
    (hx : x ∈ encoded) : ∃ e ∈ entries, codec.toAllocvec e.2 = some x.2 := by
  induction entries generalizing encoded with
  | nil =>
    cases h
    cases hx
  | cons e entries ih =>
    obtain ⟨y, ys, hy, hys, rfl⟩ := prepare_cons_iff.mp h
    rcases List.mem_cons.mp hx with rfl | hx
    · exact ⟨e, List.mem_cons_self, (prepareEntry_eq_some.mp hy).2⟩
    · obtain ⟨e', he', hencoded⟩ := ih hys hx
      exact ⟨e', List.mem_cons_of_mem e he', hencoded⟩

theorem encodes_contentsOf (hapart : Apart (placeOf fromChar N))
    (h : prepare fromChar N codec entries = some encoded) :
    Encodes (placeOf fromChar N) (fun _ => bytesOf codec) (contentsOf encoded)
      (lookups (insertAll entries)) := by
  induction entries using List.reverseRecOn generalizing encoded with
  | nil =>
    cases h
    exact lookups_empty ▸ encodes_none
  | append_singleton es e ih =>
    rw [prepare, List.mapM_append, List.mapM_cons, List.mapM_nil] at h
    simp only [Option.bind_eq_bind, Option.bind_eq_some_iff, Option.pure_def, Option.some.injEq,
      exists_eq_left'] at h
    obtain ⟨xs, hxs, ys, ⟨x, hx, rfl⟩, rfl⟩ := h
    obtain ⟨hpath, hbytes⟩ := prepareEntry_eq_some.mp hx
    rw [insertAll_concat, lookups_insert, contentsOf_concat]
    have hstep := (ih hxs).update hapart hpath (some e.2)
    rw [Option.map_some, bytesOf, hbytes] at hstep
    exact hstep

/-- Nothing is touched before all keys and values are encoded. -/
theorem prepare_spec {τ : Type} (entries : List (String × V)) (s : τ) :
    Ensures (entries.mapM fun e => do
        let path ← mapKeyOrPanic fromChar N e.1
        let bytes ← encodeValue codec e.2
        pure (path, bytes)) s
      (fun xs s' => prepare fromChar N codec entries = some xs ∧ s' = s)
      fun _ s' => prepare fromChar N codec entries = none ∧ s' = s := by
  induction entries with
  | nil => exact ensures_pure.mpr ⟨rfl, rfl⟩
  | cons e es ih =>
    rw [List.mapM_cons, prepare, List.mapM_cons, prepareEntry]
    cases hp : placeOf fromChar N e.1 with
    | none =>
      obtain ⟨cause, hcause⟩ := mapKeyOrPanic_none (σ := τ) hp
      rw [hcause, throw_bind, throw_bind, ensures_throw]
      exact ⟨rfl, rfl⟩
    | some p =>
      rw [mapKeyOrPanic_eq hp, pure_bind, encodeValue]
      cases hb : codec.toAllocvec e.2 with
      | none =>
        rw [throw_bind, throw_bind, ensures_throw]
        exact ⟨rfl, rfl⟩
      | some b =>
        rw [pure_bind, pure_bind]
        apply ih.bind
        · intro xs s' hxs
          rw [prepare] at hxs
          rw [hxs.1]
          exact ensures_pure.mpr ⟨rfl, hxs.2⟩
        · intro e' s' hnone
          rw [prepare] at hnone
          rw [hnone.1]
          exact ⟨rfl, hnone.2⟩

variable [ByteOrigin σ] {st : CoordMapStore 64 N σ} {L : Layout} {f : PathMap N}
  {ps : List (CoordPath N)}

/-- A put into a store that was filled by puts alone is refused exactly for its size and for
lack of room. -/
theorem putPath_compact (hfail : NeverFails σ) (hN : 0 < N) (hL : Refines st L)
    (hcompact : Compact ps L) (p : CoordPath N) {v : Bytes} (hv : v.length < 2 ^ 63) :
    Ensures (putPath p v) st
      (fun _ st' => v.length ≤ L.slot - lengthBytes ∧ areaNeed L.slot (ps ++ [p]) < 2 ^ 64 ∧
        ∃ L', Refines st' L' ∧ Compact (ps ++ [p]) L' ∧ L'.slot = L.slot ∧
          (L'.contents : PathMap N) = Function.update L.contents p (some v))
      fun _ st' => ¬ (v.length ≤ L.slot - lengthBytes ∧ areaNeed L.slot (ps ++ [p]) < 2 ^ 64) ∧
        Backs L.slot st' L.contents ∧ Spans L.slot (ps ++ [p]) st' := by
  have hspans : Spans L.slot ps st := ⟨L, hL, rfl, hcompact.within hN⟩
  apply ((putPath_refines hfail hN hL p hv).and (putPath_room hfail hN hspans p hv)).mono
  · intro prev st' hdone
    obtain ⟨⟨hs, -, hL'⟩, -⟩ := hdone
    obtain ⟨hnext, hroom⟩ := hcompact.stored hs hL'.holds.mount.valid
    exact ⟨Nat.le_of_not_gt hs.small, hroom, _, hL', hnext, hs.slot, hs.contents⟩
  · intro e st' hor
    obtain ⟨hor, hspans', hneed⟩ := hor
    rcases hor with ⟨hbig, rfl⟩ | ⟨hsmall, -, -, hback⟩
    · exact ⟨fun hfits => absurd hfits.1 (Nat.not_le_of_gt hbig), ⟨L, hL, rfl, rfl⟩, hspans'⟩
    · exact ⟨fun hfits => absurd hfits.2 (Nat.not_lt_of_ge (hneed hsmall).2), hback, hspans'⟩

theorem fitting_nil (hN : 0 < N) (h8 : 8 ≤ slot) (h64 : slot < 2 ^ 64) :
    Fitting slot ([] : List (CoordPath N × Value)) := by
  have hempty := compact_empty hN h8 h64
  refine ⟨fun x hx => absurd hx List.not_mem_nil, ?_⟩
  have hbump := hempty.bump_eq
  exact hbump ▸ hempty.valid.bump_lt

theorem Fitting.concat (h : Fitting slot xs) {x : CoordPath N × Value} :
    Fitting slot (xs ++ [x]) ↔ x.2.val.length ≤ slot - lengthBytes ∧
      areaNeed slot (xs.map Prod.fst ++ [x.1]) < 2 ^ 64 := by
  have hmap : (xs ++ [x]).map Prod.fst = xs.map Prod.fst ++ [x.1] := List.map_append
  rw [Fitting, hmap]
  constructor
  · intro hfit
    exact ⟨hfit.1 x (List.mem_append_right _ List.mem_cons_self), hfit.2⟩
  · intro hfit
    refine ⟨?_, hfit.2⟩
    intro y hy
    cases List.mem_append.mp hy with
    | inl hy => exact h.1 y hy
    | inr hy =>
      rw [List.mem_singleton.mp hy]
      exact hfit.1

structure Filled (slot : ℕ) (st : CoordMapStore 64 N σ) (xs : List (CoordPath N × Value)) :
    Prop where
  fitting : Fitting slot xs
  layout : ∃ L, Refines st L ∧ Compact (xs.map Prod.fst) L ∧ L.slot = slot ∧
    (L.contents : PathMap N) = contentsOf xs

theorem Filled.backs (h : Filled slot st xs) : Backs slot st (contentsOf xs) := by
  obtain ⟨L, hL, -, hslot, hcontents⟩ := h.layout
  exact ⟨L, hL, hslot, hcontents⟩

theorem Filled.spans (hN : 0 < N) (h : Filled slot st xs) : Spans slot (xs.map Prod.fst) st := by
  obtain ⟨L, hL, hcompact, hslot, -⟩ := h.layout
  exact ⟨L, hL, hslot, hcompact.within hN⟩

theorem Filled.put (hfail : NeverFails σ) (hN : 0 < N) (h : Filled slot st xs)
    (x : CoordPath N × Value) :
    Ensures (putPath x.1 x.2.val) st (fun _ st' => Filled slot st' (xs ++ [x]))
      fun _ st' => ¬ Fitting slot (xs ++ [x]) ∧ Backs slot st' (contentsOf xs) ∧
        Spans slot ((xs ++ [x]).map Prod.fst) st' := by
  obtain ⟨L, hL, hcompact, rfl, hcontents⟩ := h.layout
  apply (putPath_compact hfail hN hL hcompact x.1 x.2.property).mono
  · intro _ st' hdone
    obtain ⟨hsmall, hroom, L', hL', hcompact', hslot', hcontents'⟩ := hdone
    refine ⟨h.fitting.concat.mpr ⟨hsmall, hroom⟩, L', hL', ?_, hslot', ?_⟩
    · rw [List.map_append]
      exact hcompact'
    · rw [hcontents', hcontents, contentsOf_concat]
  · intro e st' hor
    rw [h.fitting.concat, ← hcontents, List.map_append]
    exact hor

/-- An encoded entry that does not fit ends the loop with the entries before it. -/
theorem map_replaceLoop_spec (hfail : NeverFails σ) (hN : 0 < N)
    (h : Filled slot st ([] : List (CoordPath N × Value)))
    (encoded : List (CoordPath N × Value)) :
    Ensures (encoded.foldlM (fun _ e => do
        let _ ← MapEntityStore.onMap .replace (putPath e.1 e.2.val)
        pure ()) ()) st
      (fun _ st' => Filled slot st' encoded)
      fun _ st' => ∃ good bad rest, encoded = good ++ bad :: rest ∧ Fitting slot good ∧
        ¬ Fitting slot (good ++ [bad]) ∧ Backs slot st' (contentsOf good) ∧
        Spans slot ((good ++ [bad]).map Prod.fst) st' := by
  refine Ensures.foldlM (fun visited _ st' => Filled slot st' visited) h ?_
  intro visited e rest _ st' hsplit hfilled
  apply (onMap_spec (hfilled.put hfail hN e)).bind
  · exact fun _ _ hdone => ensures_pure.mpr hdone
  · intro cause st'' hrefused
    obtain ⟨_, -, hbad, hkept⟩ := hrefused
    exact ⟨visited, e, rest, hsplit, hfilled.fitting, hbad, hkept⟩

variable (fromChar codec) in
theorem map_replace_spec (hfail : NeverFails σ) (hN : 0 < N) (h : Backs slot st f)
    (entries : List (String × V)) :
    Ensures (MapEntityStore.replaceEntries fromChar codec entries) st
      (fun _ st' => ∃ encoded, prepare fromChar N codec entries = some encoded ∧
        Filled slot st' encoded)
      fun _ st' => prepare fromChar N codec entries = none ∧ st' = st ∨
        ∃ good bad rest, prepare fromChar N codec entries = some (good ++ bad :: rest) ∧
          Fitting slot good ∧ ¬ Fitting slot (good ++ [bad]) ∧
          Backs slot st' (contentsOf good) ∧ Spans slot ((good ++ [bad]).map Prod.fst) st' := by
  rw [MapEntityStore.replaceEntries]
  apply (prepare_spec entries st).bind
  · intro encoded st₁ hencoded
    obtain ⟨hprepare, rfl⟩ := hencoded
    obtain ⟨L, hL, rfl, -⟩ := h
    have hmount := hL.holds.mount
    have h8 := hmount.valid.slot_ge
    have h64 := hmount.valid.slot_lt
    apply (onMap_spec (clearChecked_spec hN h8 h64 hmount.fields.slot hmount.fields.nodeSize)).bind
    · intro _ st₂ hclear
      have hfilled : Filled L.slot st₂ ([] : List (CoordPath N × Value)) :=
        ⟨fitting_nil hN h8 h64, _, ⟨hclear.holds, hclear.synced, rfl⟩, compact_empty hN h8 h64, rfl,
          contents_empty hN L.slot⟩
      apply (map_replaceLoop_spec hfail hN hfilled encoded).mono
      · exact fun _ st₃ hdone => ⟨encoded, hprepare, hdone⟩
      · intro e st₃ hrefused
        obtain ⟨good, bad, rest, hsplit, hspec⟩ := hrefused
        exact .inr ⟨good, bad, rest, hsplit ▸ hprepare, hspec⟩
    · intro e st₂ hbroken
      obtain ⟨_, -, hbroken⟩ := hbroken
      exact (not_broken hfail hbroken).elim
  · exact fun e st₁ hnone => .inl hnone

end

end Chton.Replacements
