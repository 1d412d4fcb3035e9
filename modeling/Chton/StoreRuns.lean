import Chton.CallRuns
import Chton.LayoutContents
import Chton.Enumerations
import Chton.StoreReopening

/-!
# Runs of a store

The calls of a store as data, their programs, and what each of them does to the layout.
Over an origin that never fails, a store and its layout give the same reply to every call,
and closing a flushed store and opening it again is no event for the layout at all.
-/

namespace Chton.StoreRuns
open OutcomePrograms CallRuns ByteRegions Origins TreeStrategyProgram CoordMapProgram
open StoreLayouts StoreLayouts.Layout LayoutImages StrategyCalls StoreRepresentations
open TreeDescents RecordCalls HeaderCalls MapCalls MapUpdates LayoutContents StoreReopening
open Enumerations

/-- The bytes of a slice: no slice is longer than `isize::MAX`. -/
abbrev Value := {v : Bytes // v.length < 2 ^ 63}

def Value.byte (b : UInt8) : Value := ⟨[b], Nat.one_lt_two_pow (Nat.succ_ne_zero 62)⟩

abbrev SlotSize := {d : ℕ // 8 ≤ d ∧ d < 2 ^ 64}

inductive MapCall (N : ℕ) where
  | get (p : CoordPath N)
  | put (p : CoordPath N) (v : Value)
  | remove (p : CoordPath N)
  | clear

inductive StoreCall (N : ℕ) where
  | map (c : MapCall N)
  | iter
  | len
  | flush

inductive Answer (N : ℕ) where
  | value (v : Option Bytes)
  | done
  | entries (es : List (CoordKey N × Bytes))
  | count (n : ℕ)
  deriving DecidableEq

abbrev Reply (N : ℕ) := Except (Stop MapError) (Answer N)

variable {N : ℕ} {σ : Type}

section
variable [Origin σ]

def MapCall.program : MapCall N → MapProgram 64 N σ (Answer N)
  | .get p => do
    let v ← getPath p
    pure (.value v)
  | .put p v => do
    let prev ← putPath p v.val
    pure (.value prev)
  | .remove p => do
    let prev ← removePath p
    pure (.value prev)
  | .clear => do
    clearChecked
    pure .done

def StoreCall.program : StoreCall N → MapProgram 64 N σ (Answer N)
  | .map c => c.program
  | .iter => do
    let es ← entries
    pure (.entries es)
  | .len => do
    let st ← get
    pure (.count st.len)
  | .flush => do
    CoordMapProgram.flush
    pure .done

def StoreCall.perform (c : StoreCall N) (st : CoordMapStore 64 N σ) :
    Reply N × CoordMapStore 64 N σ := answer c.program st

def MapCall.perform (c : MapCall N) (st : CoordMapStore 64 N σ) :
    Reply N × CoordMapStore 64 N σ := answer c.program st

/-- Drop the store and open the bytes it leaves, with some default slot size. -/
def reload (d : SlotSize) : MapProgram 64 N σ Unit := fun st =>
  match CoordMapStore.load st.mount.origin d.val with
  | .ok st' => .ok ⟨⟩ st'
  | .error e => .error e st

def reopen (d : SlotSize) : MapProgram 64 N σ Unit := do
  flush
  reload d

end

def MapCall.onLayout : MapCall N → Layout → Reply N × Layout
  | .get p, L => (.ok (.value (L.contents p)), L)
  | .put p v, L => ((L.put p v.val).1.map .value, (L.put p v.val).2)
  | .remove p, L => ((L.remove p).1.map .value, (L.remove p).2)
  | .clear, L => (.ok .done, empty L.slot)

def StoreCall.onLayout : StoreCall N → Layout → Reply N × Layout
  | .map c, L => c.onLayout L
  | .iter, L => (.ok (.entries (entriesOf N L)), L)
  | .len, L => (.ok (.count (livePaths N L).length), L)
  | .flush, L => (.ok .done, L)

variable [ByteOrigin σ] {st : CoordMapStore 64 N σ} {L : Layout}

/-- What a store over an origin that never fails has in common with its layout. -/
structure Refines (st : CoordMapStore 64 N σ) (L : Layout) : Prop where
  holds : Holds st L
  synced : Synced N (image st.mount) L
  whole : L.lost = ∅

theorem Refines.congr {st' : CoordMapStore 64 N σ} (h : Refines st L) (hs : SameStore st st') :
    Refines st' L :=
  ⟨h.holds.congr hs, hs.mount.image.symm ▸ h.synced, h.whole⟩

theorem lost_put (h : L.Valid N) (p : CoordPath N) (v : Bytes) : (L.put p v).2.lost = L.lost := by
  rcases put_cases h p v with hv | hs | ho
  · rw [put_tooLarge hv]
  · exact hs.lost
  · exact ho.lost

structure Moves (st : CoordMapStore 64 N σ) (L : Layout) (st' : CoordMapStore 64 N σ)
    (L' : Layout) : Prop where
  holds : Holds st' L'
  synced : Synced N (image st.mount) L → Synced N (image st'.mount) L'

theorem moves_of_same {st' : CoordMapStore 64 N σ} (h : Holds st L) (hs : SameStore st st') :
    Moves st L st' L :=
  ⟨h.congr hs, fun hsync => hs.mount.image.symm ▸ hsync⟩

abbrev Answers (r : Reply N × Layout) (x : MapProgram 64 N σ (Answer N))
    (st : CoordMapStore 64 N σ) (L : Layout) : Prop :=
  Ensures x st (fun a st' => r.1 = .ok a ∧ Moves st L st' r.2)
    fun e st' => r.1 = .error e ∧ Moves st L st' r.2

theorem not_broken (hfail : NeverFails σ) {e : Stop MapError} {st' : CoordMapStore 64 N σ}
    (h : Broken e st') : False := by
  cases e with
  | err e => exact hfail h
  | panic p => exact h

theorem not_faulted (hfail : NeverFails σ) {e : Stop MapError} {st' : CoordMapStore 64 N σ}
    (h : FaultedStore st e st') : False := not_broken hfail (broken_of_faulted h)

/-- A value that is too long is refused before the store is looked at. -/
theorem putPath_tooLarge (h : Holds st L) (p : CoordPath N) {v : Bytes}
    (hv : v.length > L.slot - lengthBytes) :
    Ensures (putPath p v) st (fun _ _ => False) fun e st' =>
      e = .err (.valueTooLarge v.length (L.slot - lengthBytes)) ∧ st' = st := by
  refine (maxValueLen_spec h.mount.fields.slot h.mount.valid.slot_ge h.mount.valid.slot_lt).bind ?_
    fun _ _ h => h
  intro maxLen st' hmax
  obtain ⟨rfl, rfl⟩ := hmax
  rw [if_pos hv, ensures_throw]
  exact ⟨rfl, rfl⟩

theorem put_answers (hfail : NeverFails σ) (hN : 0 < N) (h : Holds st L) (p : CoordPath N)
    (v : Value) : Answers ((MapCall.put p v).onLayout L) (MapCall.put p v).program st L := by
  refine (putPath_spec h hN p v.property).bind ?_ ?_
  · intro a st' hdone
    obtain ⟨⟨hvalue, hholds, hfollows⟩, -⟩ := hdone
    rw [ensures_pure]
    refine ⟨?_, hholds, hfollows.synced⟩
    rw [MapCall.onLayout, hvalue]
    rfl
  · intro e st' hor
    cases hor with
    | inl href =>
      refine ⟨?_, ⟨href.mount, ?_⟩, href.follows.synced⟩
      · rw [MapCall.onLayout, href.error]
        rfl
      · change st'.len = ((L.put p v.val).2.live N).ncard
        rw [live_of_kept href.kept, href.len, h.len]
    | inr hb => exact (not_broken hfail hb).elim

theorem remove_answers (hfail : NeverFails σ) (hN : 0 < N) (h : Holds st L) (p : CoordPath N) :
    Answers ((MapCall.remove p).onLayout L) (MapCall.remove p).program st L := by
  refine (removePath_spec h hN p).bind ?_ fun e st' hb => (not_broken hfail hb).elim
  intro a st' hdone
  obtain ⟨⟨hvalue, hholds, hfollows⟩, -⟩ := hdone
  rw [ensures_pure]
  refine ⟨?_, hholds, hfollows.synced⟩
  rw [MapCall.onLayout, hvalue]
  rfl

theorem clear_answers (hfail : NeverFails σ) (hN : 0 < N) (h : Holds st L) :
    Answers ((MapCall.clear : MapCall N).onLayout L) MapCall.clear.program st L := by
  refine (clearChecked_spec hN h.mount.valid.slot_ge h.mount.valid.slot_lt
    h.mount.fields.slot h.mount.fields.nodeSize).bind ?_
    fun e st' hb => (not_broken hfail hb).elim
  intro a st' hclear
  rw [ensures_pure]
  exact ⟨rfl, hclear.holds, fun _ => hclear.synced⟩

theorem MapCall.answers (hfail : NeverFails σ) (hN : 0 < N) (h : Holds st L) (c : MapCall N) :
    Answers (c.onLayout L) c.program st L := by
  cases c with
  | get p =>
    refine (getPath_spec h.mount.readable hN p).bind ?_
      fun e st' hf => (not_faulted hfail hf).elim
    intro v st' hv
    rw [ensures_pure, hv.1]
    exact ⟨rfl, moves_of_same h hv.2⟩
  | put p v => exact put_answers hfail hN h p v
  | remove p => exact remove_answers hfail hN h p
  | clear => exact clear_answers hfail hN h

/-- A store and its layout answer every call on the map alike. -/
theorem MapCall.perform_eq (hfail : NeverFails σ) (hN : 0 < N) (h : Holds st L) (c : MapCall N) :
    (c.perform st).1 = (c.onLayout L).1 ∧ Moves st L (c.perform st).2 (c.onLayout L).2 :=
  answer_eq (c.answers hfail hN h)

theorem StoreCall.answers (hfail : NeverFails σ) (hN : 0 < N) (h : Refines st L) (c : StoreCall N) :
    Answers (c.onLayout L) c.program st L := by
  cases c with
  | map c => exact c.answers hfail hN h.holds
  | iter =>
    refine (entries_spec hN h.holds.mount h.synced).bind ?_
      fun e st' hf => (not_faulted hfail hf).elim
    intro es st' hes
    rw [ensures_pure, hes.1]
    exact ⟨rfl, moves_of_same h.holds hes.2⟩
  | len =>
    rw [Answers, StoreCall.program, ensures_bind, ensures_get, ensures_pure, StoreCall.onLayout,
      length_livePaths h.holds.mount.valid, ← h.holds.len]
    exact ⟨rfl, h.holds, id⟩
  | flush =>
    refine (flush_spec h.holds).bind ?_ fun e st' hb => (not_broken hfail hb).elim
    intro a st' hflush
    rw [ensures_pure]
    exact ⟨rfl, hflush.holds, hflush.synced⟩

theorem MapCall.lost_onLayout (h : L.Valid N) (hlost : L.lost = ∅) (c : MapCall N) :
    (c.onLayout L).2.lost = ∅ := by
  cases c with
  | get p => exact hlost
  | put p v => exact (lost_put h p v.val).trans hlost
  | remove p =>
    obtain ⟨-, -, -, hl⟩ := remove_contents L p
    exact hl.trans hlost
  | clear => rfl

theorem StoreCall.lost_onLayout (h : L.Valid N) (hlost : L.lost = ∅) (c : StoreCall N) :
    (c.onLayout L).2.lost = ∅ := by
  cases c with
  | map c => exact c.lost_onLayout h hlost
  | iter => exact hlost
  | len => exact hlost
  | flush => exact hlost

/-- A store and its layout answer every call alike. -/
theorem StoreCall.perform_eq (hfail : NeverFails σ) (hN : 0 < N) (h : Refines st L)
    (c : StoreCall N) :
    (c.perform st).1 = (c.onLayout L).1 ∧ Refines (c.perform st).2 (c.onLayout L).2 := by
  obtain ⟨hreply, hmoves⟩ := answer_eq (c.answers hfail hN h)
  exact ⟨hreply, hmoves.holds, hmoves.synced h.synced,
    c.lost_onLayout h.holds.mount.valid h.whole⟩

theorem refines_new {o : σ} (ho : ByteOrigin.bytes o = []) (hN : 0 < N) (d : SlotSize) :
    ∃ st : CoordMapStore 64 N σ, CoordMapStore.new o d.val = .ok st ∧ Refines st (empty d.val) ∧
      st.mount.origin = o := by
  obtain ⟨hholds, hsynced⟩ := @fresh_holds N σ _ o ho hN d.val d.property.1 d.property.2 false
  exact ⟨_, new_spec o d.property.1, ⟨hholds, hsynced, rfl⟩, rfl⟩

/-- Opening the bytes of a dropped store either loads another store or leaves the error. -/
theorem ensures_reload {st : CoordMapStore 64 N σ} {d : SlotSize}
    {Q : Unit → CoordMapStore 64 N σ → Prop} {E : Stop MapError → CoordMapStore 64 N σ → Prop}
    (hok : ∀ st', CoordMapStore.load st.mount.origin d.val = .ok st' → Q ⟨⟩ st')
    (herr : ∀ e, (CoordMapStore.load st.mount.origin d.val :
      Except (Stop MapError) (CoordMapStore 64 N σ)) = .error e → E e st) :
    Ensures (reload d) st Q E := by
  cases hload : (CoordMapStore.load st.mount.origin d.val :
      Except (Stop MapError) (CoordMapStore 64 N σ)) with
  | ok st' =>
    have hrun : reload d st = .ok ⟨⟩ st' := by rw [reload, hload]
    exact (ensures_of_ok hrun).mpr (hok st' hload)
  | error e =>
    have hrun : reload d st = .error e st := by rw [reload, hload]
    exact (ensures_of_error hrun).mpr (herr e hload)

theorem reopen_spec (hfail : NeverFails σ) (hN : 0 < N) (hN' : N ≤ maxStoreDepth)
    (h : Refines st L) (d : SlotSize) :
    Ensures (reopen d) st (fun _ st' => Refines st' L) fun _ _ => False := by
  refine (flush_spec h.holds).bind ?_ fun e st' hb => not_broken hfail hb
  intro a st₁ hflush
  obtain ⟨st₂, hload, hopened, hholds⟩ :=
    @load_current N σ σ _ _ st₁ L st₁.mount.origin d.val hfail hN hN' d.property.1 hflush.holds rfl
      hflush.header
  have hrun : reload d st₁ = .ok ⟨⟩ st₂ := by rw [reload, hload]
  have hi : image st₂.mount = image st₁.mount := hopened.image
  exact (ensures_of_ok hrun).mpr ⟨hholds, hi ▸ hflush.synced h.synced, h.whole⟩

/-- A call, or closing the store and opening it again. -/
inductive Step (N : ℕ) where
  | call (c : StoreCall N)
  | reopen (d : SlotSize)

def Step.call? : Step N → Option (StoreCall N)
  | .call c => some c
  | .reopen _ => none

def Step.program : Step N → MapProgram 64 N σ (Answer N)
  | .call c => c.program
  | .reopen d => do
    StoreRuns.reopen d
    pure .done

def Step.perform (x : Step N) (st : CoordMapStore 64 N σ) : Reply N × CoordMapStore 64 N σ :=
  answer x.program st

def Step.onLayout : Step N → Layout → Reply N × Layout
  | .call c, L => c.onLayout L
  | .reopen _, L => (.ok .done, L)

/-- No call and no closing changes the size of the slots. -/
theorem slot_onLayout (hL : L.Valid N) (x : Step N) : (x.onLayout L).2.slot = L.slot := by
  cases x with
  | reopen d => rfl
  | call c =>
    cases c with
    | iter => rfl
    | len => rfl
    | flush => rfl
    | map c =>
      cases c with
      | get p => rfl
      | clear => rfl
      | remove p => exact (remove_contents L p).2.2.1
      | put p v =>
        rcases put_cases hL p v.val with htoo | hs | ho
        · rw [Step.onLayout, StoreCall.onLayout, MapCall.onLayout, put_tooLarge htoo]
        · exact hs.slot
        · exact ho.kept.slot

theorem Step.perform_eq (hfail : NeverFails σ) (hN : 0 < N) (hN' : N ≤ maxStoreDepth)
    (h : Refines st L) (x : Step N) :
    (x.perform st).1 = (x.onLayout L).1 ∧ Refines (x.perform st).2 (x.onLayout L).2 := by
  cases x with
  | call c => exact c.perform_eq hfail hN h
  | reopen d =>
    refine answer_eq (I := fun st' => Refines st' L) (r := .ok Answer.done) ?_
    refine (reopen_spec hfail hN hN' h d).bind ?_ fun e st' hf => hf.elim
    intro a st' hst'
    rw [ensures_pure]
    exact ⟨rfl, hst'⟩

/-- In every run, closings included, a store and its layout give the same replies. -/
theorem run_steps (hfail : NeverFails σ) (hN : 0 < N) (hN' : N ≤ maxStoreDepth)
    (h : Refines st L) (xs : List (Step N)) :
    (run Step.perform xs st).1 = (run Step.onLayout xs L).1 ∧
      Refines (run Step.perform xs st).2 (run Step.onLayout xs L).2 :=
  run_simulation (fun x _ _ _ h => x.perform_eq hfail hN hN' h) h

end Chton.StoreRuns
