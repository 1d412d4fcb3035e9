import Chton.ProximityQueries
import Chton.EnumerationAgreement

/-!
# Range queries are scans

`bounding_box_range` and the two proximity queries never walk the tree. They look up each path
that a geometry enumerates. In every state that a run reaches this is the full enumeration of the
store restricted to the region: no stored path of the region is missed or reported twice, and none
outside of it appears.

The iterator over the paths of a box is not part of this repository and is a parameter, as the
cube is for the proximity queries.
-/

namespace Chton.RangeQueries
open OutcomePrograms CallRuns ByteRegions Origins TreeStrategyProgram CoordMapProgram
open StoreLayouts StoreLayouts.Layout StrategyCalls StoreRepresentations RecordCalls MapCalls
open LayoutContents Enumerations StoreRuns MapServices EntityStores EntitySimulations
open ProximityQueries EnumerationAgreement

abbrev Ranges (N : ℕ) := Fin N → UInt16 × UInt16

/-- `BoundingBoxIter::<N>`. -/
structure Boxes (N : ℕ) where
  countPaths : Ranges N → ℕ
  paths : Ranges N → List (CoordPath N)

variable {N : ℕ} {σ V : Type}

/-- `CoordMapStore::bounding_box_range`. -/
def boundingBoxRange [Origin σ] (boxes : Boxes N) (elementBytes : ℕ) (ranges : Ranges N) :
    MapProgram 64 N σ (List (CoordPath N × Bytes)) := do
  withCapacity 64 elementBytes (boxes.countPaths ranges)
  collect getPath (boxes.paths ranges)

structure Covers (ps : List (CoordPath N)) (within : CoordPath N → Bool) : Prop where
  once : ps.Nodup
  mem : ∀ p, p ∈ ps ↔ within p = true

/-- The order in which `TreeStrategy::iter` reports the paths of a store. -/
abbrev Ascending (ps : List (CoordPath N)) : Prop :=
  ps.Pairwise fun p q => List.Lex (· < ·) p.coords q.coords

theorem foundIn_isSome (f : PathMap N) (ps : List (CoordPath N)) :
    foundIn f (ps.filter fun p => (f p).isSome) = foundIn f ps := by
  induction ps with
  | nil => rfl
  | cons p ps ih =>
    cases hp : f p with
    | none => simp [hp, foundIn_cons_none hp, ih]
    | some v => simp [hp, foundIn_cons_some hp, ih]

variable {f : PathMap N} {live ps : List (CoordPath N)} {within : CoordPath N → Bool}

/-- The stored paths of a region, read off its enumeration and off the enumeration of the store. -/
theorem stored_perm (hlive : ∀ p, p ∈ live ↔ (f p).isSome = true) (hnodup : live.Nodup)
    (h : Covers ps within) : (ps.filter fun p => (f p).isSome).Perm (live.filter within) := by
  rw [List.perm_ext_iff_of_nodup (h.once.filter _) (hnodup.filter _)]
  intro p
  rw [List.mem_filter, List.mem_filter, h.mem, hlive]
  exact and_comm

theorem foundIn_perm (hlive : ∀ p, p ∈ live ↔ (f p).isSome = true) (hnodup : live.Nodup)
    (h : Covers ps within) : (foundIn f ps).Perm (foundIn f (live.filter within)) := by
  rw [← foundIn_isSome f ps]
  exact (stored_perm hlive hnodup h).filterMap _

theorem lex_asymm {l l' : List Coord} (h : List.Lex (· < ·) l l') (h' : List.Lex (· < ·) l' l) :
    False :=
  lt_asymm (a := l) (b := l') h h'

theorem eq_of_ascending {qs : List (CoordPath N)} (hps : Ascending ps) (hqs : Ascending qs)
    (h : ps.Perm qs) : ps = qs :=
  h.eq_of_pairwise (fun _ _ _ _ hlt hgt => (lex_asymm hlt hgt).elim) hps hqs

theorem foundIn_ascending (hlive : ∀ p, p ∈ live ↔ (f p).isSome = true) (hnodup : live.Nodup)
    (hsorted : Ascending live) (h : Covers ps within) (hps : Ascending ps) :
    foundIn f ps = foundIn f (live.filter within) := by
  have hperm := stored_perm hlive hnodup h
  rw [← foundIn_isSome f ps, eq_of_ascending (hps.filter _) (hsorted.filter _) hperm]

def scan [ByteOrigin σ] (st : CoordMapStore 64 N σ) (found : List (CoordPath N × ℕ))
    (within : CoordPath N → Bool) : List (CoordPath N × Bytes) :=
  foundIn (valueAt st) ((found.map Prod.fst).filter within)

/-- The query returns what was scanned, in the same order when its paths come in ascending order. -/
def Scans {ε α : Type} (x : EStateM ε (CoordMapStore 64 N σ) (List α))
    (st : CoordMapStore 64 N σ) (ps : List (CoordPath N)) (scanned : List α) : Prop :=
  ∃ results st', x st = .ok results st' ∧ results.Perm scanned ∧
    (Ascending ps → results = scanned)

/-- The three queries against an enumeration of the store. -/
structure Answered [ByteOrigin σ] (cube : Cube N) (boxes : Boxes N) (codec : Codec V)
    (elementBytes : ℕ) (st : CoordMapStore 64 N σ) (found : List (CoordPath N × ℕ)) : Prop where
  box : ∀ ranges within, Covers (boxes.paths ranges) within →
    boxes.countPaths ranges * elementBytes < 2 ^ 63 →
      Scans (boundingBoxRange boxes elementBytes ranges) st (boxes.paths ranges)
        (scan st found within)
  unreserved : ∀ ranges, 2 ^ 63 ≤ boxes.countPaths ranges * elementBytes →
    boundingBoxRange boxes elementBytes ranges st = .error (.panic .capacity) st
  map : ∀ D R center radius within, Covers (cube D R center radius) within →
    SizeFits N elementBytes radius →
      Scans (mapProximity cube elementBytes D R center radius) st (cube D R center radius)
        (scan st found within)
  store : ∀ D R center radius within, Covers (cube D R center radius) within →
    ∀ decode : Bytes → V,
      (∀ e ∈ scan st found within, codec.fromBytes e.2 = some (decode e.2)) →
        Scans (storeProximity cube codec D R center radius) st (cube D R center radius)
          ((scan st found within).map fun e => (e.1, decode e.2))

variable [ByteOrigin σ] {slot elementBytes : ℕ} {st : CoordMapStore 64 N σ}
variable {cube : Cube N} {boxes : Boxes N} {codec : Codec V}

theorem boundingBoxRange_spec (hfail : NeverFails σ) (hN : 0 < N) (h : Backs slot st f)
    {ranges : Ranges N} (hfits : boxes.countPaths ranges * elementBytes < 2 ^ 63) :
    Ensures (boundingBoxRange boxes elementBytes ranges) st
      (fun results st' => results = foundIn f (boxes.paths ranges) ∧ Backs slot st' f)
      fun _ _ => False := by
  rw [boundingBoxRange, withCapacity_eq, if_pos hfits, pure_bind]
  exact collect_spec (I := fun st => Backs slot st f)
    (fun p _ hst' => getPath_backs hfail hN hst' p) h _

omit [ByteOrigin σ] in
theorem scans_of_found {ε : Type} {x : EStateM ε (CoordMapStore 64 N σ) (List (CoordPath N × Bytes))}
    {st' : CoordMapStore 64 N σ} {live : List (CoordPath N)}
    (hlive : ∀ p, p ∈ live ↔ (f p).isSome = true) (hnodup : live.Nodup) (hsorted : Ascending live)
    (h : Covers ps within) (hx : x st = .ok (foundIn f ps) st') :
    Scans x st ps (foundIn f (live.filter within)) :=
  ⟨_, st', hx, foundIn_perm hlive hnodup h, foundIn_ascending hlive hnodup hsorted h⟩

/-- Decoding commutes with looking up a region. -/
theorem decodes_map {es : List (CoordPath N × Bytes)} {decode : Bytes → V}
    (h : ∀ e ∈ es, codec.fromBytes e.2 = some (decode e.2)) :
    Decodes codec es (es.map fun e => (e.1, decode e.2)) := by
  rw [Decodes, List.forall₂_map_right_iff, List.forall₂_same]
  exact fun e he => ⟨rfl, h e he⟩

theorem scans_decoded (hfail : NeverFails σ) (hN : 0 < N) (hst : Backs slot st f)
    (hlive : ∀ p, p ∈ live ↔ (f p).isSome = true) (hnodup : live.Nodup) (hsorted : Ascending live)
    {D R radius : ℕ} {center : CoordPath N} (h : Covers (cube D R center radius) within)
    {decode : Bytes → V} (hdecode : ∀ e ∈ foundIn f (live.filter within),
      codec.fromBytes e.2 = some (decode e.2)) :
    Scans (storeProximity cube codec D R center radius) st (cube D R center radius)
      ((foundIn f (live.filter within)).map fun e => (e.1, decode e.2)) := by
  have hperm := foundIn_perm hlive hnodup h
  have hout := decodes_map (V := V) fun e he => hdecode e (hperm.mem_iff.mp he)
  obtain ⟨st', hx⟩ := storeProximity_answers hfail hN hst hout
  refine ⟨_, st', hx, hperm.map _, fun hsort => ?_⟩
  rw [foundIn_ascending hlive hnodup hsorted h hsort]

theorem answered_of_refines (hfail : NeverFails σ) (hN : 0 < N) (hdepth : N ≤ maxStoreDepth)
    {L : Layout} (h : Refines st L) :
    Answered cube boxes codec elementBytes st ((livePaths N L).map fun p => (p, L.ptr p.coords)) := by
  have hbacks : Backs L.slot st L.contents := ⟨L, h, rfl, rfl⟩
  have hlive (p : CoordPath N) : p ∈ livePaths N L ↔ (L.contents p).isSome = true := by
    rw [mem_livePaths h.holds.mount.valid.toWired, Option.isSome_iff_ne_none]
    exact contents_eq_none.not.symm
  have hscan (within : CoordPath N → Bool) :
      scan st ((livePaths N L).map fun p => (p, L.ptr p.coords)) within =
        foundIn L.contents ((livePaths N L).filter within) := by
    rw [scan, valueAt_backs hfail hN hbacks, List.map_map]
    exact congrArg (fun ps => foundIn _ (ps.filter within)) (List.map_id _)
  constructor
  · intro ranges within hcovers hfits
    rw [hscan]
    obtain ⟨_, st', hx, rfl, -⟩ := (boundingBoxRange_spec hfail hN hbacks hfits).exists_ok
    exact scans_of_found hlive livePaths_nodup sorted_livePaths hcovers hx
  · intro ranges hbig
    rw [boundingBoxRange, withCapacity_eq, if_neg (Nat.not_lt.mpr hbig)]
    rfl
  · intro D R center radius within hcovers hfits
    rw [hscan, Scans, mapProximity_fits hdepth hfits]
    obtain ⟨_, st', hx, rfl, -⟩ := (collect_spec (I := fun st => Backs L.slot st L.contents)
      (fun p _ h => lookup_spec hfail hN h .map p) hbacks (cube D R center radius)).exists_ok
    exact scans_of_found hlive livePaths_nodup sorted_livePaths hcovers hx
  · intro D R center radius within hcovers decode hdecode
    rw [hscan] at hdecode ⊢
    exact scans_decoded hfail hN hbacks hlive livePaths_nodup sorted_livePaths hcovers hdecode

/-- In every state that a run reaches the range queries answer with the stored pairs of their
region, each once, and in the order of the enumeration where the geometry keeps that order. -/
theorem queries_are_scans (hfail : NeverFails σ) (hN : 0 < N) (hdepth : N ≤ maxStoreDepth) {o : σ}
    (ho : ByteOrigin.bytes o = []) (d : SlotSize) (cube : Cube N) (boxes : Boxes N)
    (codec : Codec V) (elementBytes : ℕ) :
    ∃ st : CoordMapStore 64 N σ, CoordMapStore.new o d.val = .ok st ∧
      ∀ xs : List (Step N), ∃ found, Agrees (run Step.perform xs st).2 found ∧
        Answered cube boxes codec elementBytes (run Step.perform xs st).2 found := by
  obtain ⟨st, hnew, hst, -⟩ := refines_new ho hN d
  refine ⟨st, hnew, fun xs => ?_⟩
  obtain ⟨-, hfinal⟩ := run_steps hfail hN hdepth hst xs
  exact ⟨_, agrees_of_refines hfail hN hfinal, answered_of_refines hfail hN hdepth hfinal⟩

def segment (within : Coord → Bool) : List (CoordPath 1) :=
  ((List.finRange nValid).filter within).map ((CoordPath.zero 1).set 0)

theorem covers_segment (within : Coord → Bool) :
    Covers (segment within) fun p => p.coords.all within := by
  constructor
  · have hinj : Function.Injective ((CoordPath.zero 1).set 0) := by
      intro c c' h
      exact List.head_eq_of_cons_eq (congrArg CoordPath.coords h)
    exact ((List.nodup_finRange nValid).filter within).map hinj
  · intro p
    obtain ⟨c, hc⟩ := List.length_eq_one_iff.mp p.length_coords
    simp only [segment, List.mem_map, List.mem_filter, List.mem_finRange, true_and, hc]
    constructor
    · intro h
      obtain ⟨c', hc', rfl⟩ := h
      obtain rfl : c' = c := List.head_eq_of_cons_eq hc
      simpa using hc'
    · intro h
      exact ⟨c, by simpa using h, CoordPath.ext hc.symm⟩

def between (range : UInt16 × UInt16) (c : Coord) : Bool :=
  range.1.toNat ≤ c.val ∧ c.val ≤ range.2.toNat

def segments : Boxes 1 where
  paths ranges := segment (between (ranges 0))
  countPaths ranges := (ranges 0).2.toNat + 1 - (ranges 0).1.toNat

theorem queries_are_scans_segments :
    ∃ st : CoordMapStore 64 1 IdealOrigin, CoordMapStore.new ⟨[]⟩ 32 = .ok st ∧
      ∀ xs : List (Step 1), ∃ found, Agrees (run Step.perform xs st).2 found ∧
        ∀ ranges : Ranges 1, Scans (boundingBoxRange segments 32 ranges) (run Step.perform xs st).2
          (segments.paths ranges)
          (scan (run Step.perform xs st).2 found fun p => p.coords.all (between (ranges 0))) := by
  obtain ⟨st, hnew, hall⟩ := queries_are_scans IdealOrigin.neverFails Nat.one_pos (by decide)
    (o := ⟨[]⟩) rfl ⟨32, by decide⟩ box segments byteCodec 32
  refine ⟨st, hnew, fun xs => ?_⟩
  obtain ⟨found, hagrees, hanswered⟩ := hall xs
  refine ⟨found, hagrees, fun ranges => ?_⟩
  have hcovers : Covers (segments.paths ranges) fun p => p.coords.all (between (ranges 0)) := by
    simp only [segments]
    exact covers_segment (between (ranges 0))
  apply hanswered.box ranges _ hcovers
  have hlast := (ranges 0).2.toNat_lt
  simp only [segments]
  omega

end Chton.RangeQueries
