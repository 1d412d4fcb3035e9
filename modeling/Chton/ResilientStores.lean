import Chton.DroppedStores
import Chton.FailedCalls
import Chton.FlakyOrigins

/-!
# Stores that went through failures

As long as no call of a run failed late, the store still stands for a map, and a call that
fails now is not seen in it. Spans may be lost on the way, but none is used twice.
-/

namespace Chton.ResilientStores
open OutcomePrograms CallRuns ByteRegions Origins TreeStrategyProgram CoordMapProgram
open StoreLayouts StoreLayouts.Layout LayoutImages StrategyCalls StoreRepresentations
open TreeDescents RecordCalls MapCalls MapUpdates LayoutContents StoreReopening StoreRuns FiniteMaps
open PathlessStores SoundStores AreaPartitions FailedCalls FlakyOrigins
open DroppedStores (leafPath)

variable {N : ℕ} {σ : Type} [ByteOrigin σ] {st st' : CoordMapStore 64 N σ} {L : Layout}
  {x : Step N} {f : PathMap N} {slot : ℕ}

/-- No span of the area is used twice, and none ends behind the bump pointer. -/
structure Unaliased (s : TreeStrategy N) (b : Bytes) (fs : List ℕ) : Prop where
  list : FreeList b s.freeHead fs
  once : fs.Nodup
  unlinked : ∀ q ∈ Records N b, reach b q ∉ fs
  apart : ∀ u u', InUse N b fs u → InUse N b fs u' → u ≠ u' →
    u.start b + u.size s ≤ u'.start b ∨ u'.start b + u'.size s ≤ u.start b
  below : ∀ u, InUse N b fs u → u.start b + u.size s ≤ s.bump

structure Unseen (st st' : CoordMapStore 64 N σ) : Prop where
  view : view (working st') = view (working st)
  len : st'.len = st.len

/-- What failures leave behind in a store of any depth. -/
structure Resilient (st : CoordMapStore 64 N σ) : Prop where
  area : ∃ fs, Unaliased st.mount.strategy (image st.mount) fs
  /-- An error that is not late is not seen. -/
  failed : ∀ x e, Early x st → (x.perform st).1 = .error e → Unseen st (x.perform st).2
  /-- Nor is a failed `clear_checked` that wrote nothing, until the next allocation. -/
  cleared : ∀ e, (MapCall.clear.perform st).1 = .error e →
    image (MapCall.clear.perform st).2.mount = image st.mount →
      Unseen st (MapCall.clear.perform st).2

structure KeepsMap (slot : ℕ) (xs : List (Step N)) (st : CoordMapStore 64 N σ) : Prop where
  /-- What the calls that returned have returned. -/
  replies : (heard xs st).map Prod.snd = (mapAfter slot xs st fun _ => none).1
  view : view (working (run Step.perform xs st).2) =
    fun p => .ok (.value ((mapAfter slot xs st fun _ => none).2 p))
  len : (run Step.perform xs st).2.len =
    {p | (mapAfter slot xs st fun _ => none).2 p ≠ none}.ncard
  /-- What the calls on an origin that works will return. -/
  resumed : ∀ cs, MapRun slot (mapAfter slot xs st fun _ => none).2
    (working (run Step.perform xs st).2) cs

def ownerOf : User → Owner
  | .node q => .entry q
  | .record q => .entry q
  | .free a => .free a

theorem owner_of_inUse {m : Mount N σ} (h : Represents m L) {u : User}
    (hu : InUse N (image m) L.free u) : L.Owns (ownerOf u) ∧
      L.start (ownerOf u) = u.start (image m) ∧ L.size N (ownerOf u) = u.size m.strategy := by
  cases u with
  | node q =>
    obtain ⟨hne, hlen, hq⟩ := hu
    have hreach := reach_eq h.valid h.stored hlen.le
    exact ⟨⟨hne, hreach ▸ hq⟩, hreach.symm, (spanOf_node hlen).trans h.fields.nodeSize.symm⟩
  | record q =>
    obtain ⟨hne, hlen, hq⟩ := hu
    have hreach := reach_eq h.valid h.stored hlen.le
    exact ⟨⟨hne, hreach ▸ hq⟩, hreach.symm, (spanOf_record hlen).trans h.fields.slot.symm⟩
  | free a => exact ⟨hu, rfl, h.fields.slot.symm⟩

theorem ownerOf_inj {b : Bytes} {fs : List ℕ} {u u' : User} (hu : InUse N b fs u)
    (hu' : InUse N b fs u') (h : ownerOf u = ownerOf u') : u = u' := by
  cases u with
  | node q =>
    cases u' with
    | node q' =>
      cases h
      rfl
    | record q' =>
      cases h
      exact absurd hu'.2.1 hu.2.1.ne
    | free a => cases h
  | record q =>
    cases u' with
    | node q' =>
      cases h
      exact absurd hu.2.1 hu'.2.1.ne
    | record q' =>
      cases h
      rfl
    | free a => cases h
  | free a =>
    cases u' with
    | node q => cases h
    | record q => cases h
    | free a' =>
      cases h
      rfl

theorem unaliased_of_represents {m : Mount N σ} (h : Represents m L) :
    Unaliased m.strategy (image m) L.free := by
  have htiling := h.valid.tiling
  have hapart : ∀ u u', InUse N (image m) L.free u → InUse N (image m) L.free u' → u ≠ u' →
      u.start (image m) + u.size m.strategy ≤ u'.start (image m) ∨
        u'.start (image m) + u'.size m.strategy ≤ u.start (image m) := by
    intro u u' hu hu' hne
    obtain ⟨hown, hstart, hsize⟩ := owner_of_inUse h hu
    obtain ⟨hown', hstart', hsize'⟩ := owner_of_inUse h hu'
    have hdisjoint := htiling.disjoint hown hown' fun heq => hne (ownerOf_inj hu hu' heq)
    rwa [hstart, hsize, hstart', hsize'] at hdisjoint
  refine ⟨?_, h.valid.nodup, ?_, hapart, ?_⟩
  · rw [h.fields.freeHead]
    apply freeList_of_chain h.stored.chain
    intro a ha h0
    have hlo := h.valid.free_lower ha
    rw [rootEnd_eq] at hlo
    omega
  · intro q hq hmem
    have hslot := h.valid.slot_ge
    have hsize := h.fields.slot
    have hdisjoint := hapart (.record q) (.free (reach (image m) q)) hq hmem
      fun heq => by cases heq
    simp only [User.start, User.size] at hdisjoint
    omega
  · intro u hu
    obtain ⟨hown, hstart, hsize⟩ := owner_of_inUse h hu
    have hupper := htiling.upper (ownerOf u) hown
    rwa [hstart, hsize, ← h.fields.bump] at hupper

theorem unaliased_pathless {st : CoordMapStore 64 0 σ} (h : Pathless slot st) :
    Unaliased st.mount.strategy (image st.mount) [] := by
  have hpart := partitioned_of_pathless h
  refine ⟨hpart.list, hpart.once, ?_, ?_, ?_⟩
  · exact fun q _ hmem => by cases hmem
  · exact fun u u' hu hu' hne => hpart.tiling.disjoint hu hu' hne
  · exact fun u hu => hpart.tiling.upper u hu

theorem holds_working (h : Holds st L) : Holds (working st) L :=
  ⟨⟨h.mount.valid, h.mount.fields, h.mount.stored⟩, h.len⟩

theorem stands_working (h : Stands slot st f) : Stands slot (working st) f := by
  obtain ⟨L, hL, hslot, hf⟩ := h
  exact ⟨L, holds_working hL, hslot, hf⟩

theorem view_stands (hN : 0 < N) (h : Stands slot st f) :
    view (working st) = fun p => .ok (.value (f p)) := by
  obtain ⟨L, hL, -, rfl⟩ := h
  exact view_of_holds IdealOrigin.neverFails hN (holds_working hL)

theorem len_stands (hN : 0 < N) (h : Stands slot st f) : st.len = {p | f p ≠ none}.ncard := by
  rw [← view_value (view_stands hN h)]
  obtain ⟨L, hL, -, -⟩ := h
  exact len_of_holds IdealOrigin.neverFails hN (holds_working hL)

theorem unseen_of_stands (hN : 0 < N) (h : Stands slot st f) (h' : Stands slot st' f) :
    Unseen st st' :=
  ⟨(view_stands hN h').trans (view_stands hN h).symm,
    (len_stands hN h').trans (len_stands hN h).symm⟩

theorem failed_unseen (hN : 0 < N) (hN' : N ≤ maxStoreDepth) (h : Stands slot st f)
    {e : Stop MapError} (hx : Early x st) (he : (x.perform st).1 = .error e) :
    Unseen st (x.perform st).2 := by
  apply unseen_of_stands hN h
  apply (step_acts hN hN' h hx).skipped
  rw [he]
  exact returned_error x e

/-- The fields of a failed clear are those of a fresh store, but lookups do not read them. -/
theorem unseen_of_halfCleared (hN : 0 < N) (h : Holds st L) (hc : HalfCleared L.slot st st')
    (hi : image st'.mount = image st.mount) : Unseen st st' := by
  have hread : Readable (working st').mount L := by
    refine ⟨h.mount.valid, ?_, ?_⟩
    · change st'.mount.strategy.recordSlotSize = L.slot
      rw [hc.strategy]
      rfl
    · exact hi.symm ▸ h.mount.stored
  refine ⟨?_, hc.len⟩
  rw [view_of_readable IdealOrigin.neverFails hN hread,
    view_of_holds IdealOrigin.neverFails hN (holds_working h)]

theorem cleared_unseen (hN : 0 < N) (h : Holds st L) {e : Stop MapError}
    (he : (MapCall.clear.perform st).1 = .error e)
    (hi : image (MapCall.clear.perform st).2.mount = image st.mount) :
    Unseen st (MapCall.clear.perform st).2 := by
  have hspec : Ensures (MapCall.clear : MapCall N).program st (fun _ _ => True)
      fun _ st' => HalfCleared L.slot st st' := by
    apply (clearChecked_emptied h.mount.fields.slot h.mount.fields.nodeSize).bind
    · exact fun _ _ _ => ensures_pure.mpr trivial
    · exact fun _ _ hf => hf.state.2
  apply unseen_of_halfCleared hN h _ hi
  rw [MapCall.perform] at he ⊢
  rcases answer_cases hspec with ⟨a, st', hx, -⟩ | ⟨e', st', hx, hst'⟩
  · rw [hx] at he
    cases he
  · rw [hx]
    exact hst'

theorem resilient_of_stands (hN : 0 < N) (hN' : N ≤ maxStoreDepth) (h : Stands slot st f) :
    Resilient st := by
  obtain ⟨L, hL, hslot, hf⟩ := id h
  constructor
  · exact ⟨L.free, unaliased_of_represents hL.mount⟩
  · exact fun x e hx he => failed_unseen hN hN' h hx he
  · exact fun e he hi => cleared_unseen hN hL he hi

theorem resilient_of_pathless {st : CoordMapStore 64 0 σ} (h : Pathless slot st) :
    Resilient st := by
  have hunseen : ∀ {st' : CoordMapStore 64 0 σ}, Pathless slot st' → Unseen st st' := by
    intro st' h'
    refine ⟨?_, h'.len.trans h.len.symm⟩
    rw [view_pathless, view_pathless]
  constructor
  · exact ⟨[], unaliased_pathless h⟩
  · exact fun x e _ _ => hunseen (step_pathless h x)
  · exact fun e _ _ => hunseen (step_pathless h (.call (.map .clear)))

/-- While no call fails late, a store that starts empty keeps a map through all failures. -/
theorem early_failures_unseen (hN : N ≤ maxStoreDepth) {o : σ} (ho : ByteOrigin.bytes o = [])
    (d : SlotSize) :
    ∃ st : CoordMapStore 64 N σ, CoordMapStore.new o d.val = .ok st ∧
      ∀ xs : List (Step N), EarlyRun xs st →
        Resilient (run Step.perform xs st).2 ∧ (0 < N → KeepsMap d.val xs st) := by
  cases N with
  | zero =>
    obtain ⟨st, hnew, hst, -⟩ := pathless_new o d
    refine ⟨st, hnew, fun xs _ => ⟨?_, fun h0 => absurd h0 (Nat.lt_irrefl 0)⟩⟩
    exact resilient_of_pathless (run_pathless hst xs)
  | succ n =>
    obtain ⟨st, hnew, hst, -⟩ := refines_new ho (Nat.succ_pos n) d
    have hpos := Nat.succ_pos n
    refine ⟨st, hnew, fun xs hxs => ?_⟩
    obtain ⟨hreplies, hfinal⟩ :=
      run_acts hpos hN hxs ⟨_, hst.holds, rfl, contents_empty hpos d.val⟩
    refine ⟨resilient_of_stands hpos hN hfinal, fun _ => ⟨hreplies, ?_, ?_, ?_⟩⟩
    · exact view_stands hpos hfinal
    · exact len_stands hpos hfinal
    · exact mapRun_of_stands IdealOrigin.neverFails hpos (stands_working hfinal)

/-- An empty store over an origin that fails as planned. -/
def flaky (plan : List Bool) : CoordMapStore 64 1 FlakyOrigin :=
  ⟨⟨freshFields 1 16, ⟨[], plan⟩⟩, 0, false⟩

def firstPut : MapCall 1 := .put (leafPath 0) (.byte 7)

/-- The put whose first read fails is not late, and the store is as if it was not called. -/
theorem early_failures_unseen_flaky :
    (firstPut.perform (flaky [true])).1 = .error (.err (.binding (.origin (.io 5)))) ∧
      ∃ st : CoordMapStore 64 1 FlakyOrigin, CoordMapStore.new ⟨[], [true]⟩ 16 = .ok st ∧
        ∀ xs : List (Step 1), EarlyRun xs st →
          Resilient (run Step.perform xs st).2 ∧ (0 < 1 → KeepsMap 16 xs st) :=
  ⟨by decide +kernel, early_failures_unseen (o := (⟨[], [true]⟩ : FlakyOrigin)) (by decide) rfl
    ⟨16, by decide⟩⟩

def holding (plan : List Bool) : CoordMapStore 64 1 FlakyOrigin :=
  (firstPut.perform (flaky (List.replicate 5 false ++ plan))).2

/-- A put that fails between the leaf slot and the record. -/
def halfPut : Reply 1 × CoordMapStore 64 1 FlakyOrigin :=
  firstPut.perform (flaky (List.replicate 3 false ++ [true]))

/-- A remove that fails between the freed record and the leaf slot. -/
def halfRemoved : Reply 1 × CoordMapStore 64 1 FlakyOrigin :=
  (MapCall.remove (leafPath 0)).perform (holding (List.replicate 4 false ++ [true]))

/-- A clear that fails at its first write. -/
def halfCleared : Reply 1 × CoordMapStore 64 1 FlakyOrigin := MapCall.clear.perform (holding [true])

/-- The put is counted and breaks its path, the remove changes the value, and after the clear
a put on another path overwrites it. -/
theorem late_failures_seen :
    (∀ plan, CoordMapStore.new ⟨[], plan⟩ 16 = .ok (flaky plan)) ∧
      (halfPut.1 = .error (.err (.origin (.io 5))) ∧ halfPut.2.len = 1 ∧
        view (flaky []) (leafPath 0) = .ok (.value none) ∧
        view halfPut.2 (leafPath 0) =
          .error (.err (.corruptRecord 90837 "short record header"))) ∧
      (halfRemoved.1 = .error (.err (.binding (.origin (.io 5)))) ∧
        view (holding []) (leafPath 0) = .ok (.value (some [7])) ∧
        view halfRemoved.2 (leafPath 0) = .ok (.value (some []))) ∧
      halfCleared.1 = .error (.err (.binding (.origin (.io 5)))) ∧
        view halfCleared.2 (leafPath 0) = .ok (.value (some [7])) ∧
        view ((MapCall.put (leafPath 1) (.byte 9)).perform halfCleared.2).2 (leafPath 0) =
          .ok (.value (some [9])) := by
  constructor
  · intro plan
    exact new_spec (⟨[], plan⟩ : FlakyOrigin) (Nat.le_add_right 8 8)
  · decide +kernel

end Chton.ResilientStores
