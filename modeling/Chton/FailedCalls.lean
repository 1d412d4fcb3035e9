import Chton.AreaPartitions
import Chton.OriginFrames
import Chton.SoundStores

/-!
# Calls that fail

Any read or write of the origin may fail and leave the bytes as they were. The store undoes
nothing: what a call wrote before it failed stays written. Up to its first write to a linked
record or a leaf slot, `put_path` and `remove_path` only grow the tree and lose spans, and
no entry is touched. What fails after that write, and a failed `clear_checked`, is late.
-/

namespace Chton.FailedCalls
open OutcomePrograms CallRuns ByteRegions Origins TreeStrategyProgram CoordMapProgram
open StoreLayouts StoreLayouts.Layout LayoutImages OriginFrames StrategyCalls StoreRepresentations
open TreeDescents RecordCalls MapCalls MapUpdates LayoutContents StoreReopening StoreRuns FiniteMaps
open PathlessStores SoundStores AreaPartitions

variable {N : ℕ} {σ : Type} [ByteOrigin σ] {st st' : CoordMapStore 64 N σ} {L : Layout}
  {x : Step N} {c : MapCall N} {f : PathMap N} {slot : ℕ}

def working (st : CoordMapStore 64 N σ) : CoordMapStore 64 N IdealOrigin :=
  ⟨⟨st.mount.strategy, ⟨image st.mount⟩⟩, st.len, st.dirty⟩

/-- The call fails after its first write to something linked. -/
def Late (st : CoordMapStore 64 N σ) : MapCall N → Prop
  | .get _ => False
  | .put p v => ∃ s st₁ e st₂,
    putStage p v.val st = .ok s st₁ ∧ putFinish v.val s st₁ = .error e st₂
  | .remove p => ∃ s st₁ e st₂, removeStage p st = .ok s st₁ ∧ removeFinish s st₁ = .error e st₂
  | .clear => ∃ e st₁, clearChecked st = .error e st₁

def Early : Step N → CoordMapStore 64 N σ → Prop
  | .call (.map c), st => ¬Late st c
  | _, _ => True

/-- A run in which no call fails late. -/
abbrev EarlyRun (xs : List (Step N)) (st : CoordMapStore 64 N σ) : Prop :=
  Guarded Early Step.perform xs st

/-- The call on the map that a step and its reply amount to: none where the call failed. -/
def returned : Step N → Reply N → Option (MapCall N)
  | .call (.map c), .ok _ => some c
  | _, _ => none

theorem stands_of_kept {L' : Layout} (h : Holds st L) (hL' : Represents st'.mount L')
    (hk : Kept N L L') (hlen : st'.len = st.len) : Stands L.slot st' (L.contents : PathMap N) := by
  refine ⟨L', ⟨hL', ?_⟩, hk.slot, contents_kept hk⟩
  rw [live_of_kept hk, hlen, h.len]

theorem stands_of_faulted {e : Stop MapError} (h : Holds st L) (hf : FaultedStore st e st') :
    Stands L.slot st' (L.contents : PathMap N) :=
  ⟨L, h.congr hf.state.2, rfl, rfl⟩

/-- A put that fails before its first visible write. -/
theorem putStage_fails (hN : 0 < N) (h : Holds st L) {p : CoordPath N} {v : Value}
    {e : Stop MapError} (hx : putStage p v.val st = .error e st') :
    Stands L.slot st' (L.contents : PathMap N) := by
  obtain ⟨q, c, hq, -⟩ := coords_split hN p
  rcases (putStage_spec h.mount hN hq).error hx with href | hspared
  · exact stands_of_kept h href.mount href.kept href.len
  · obtain ⟨-, ⟨L', hL', hk⟩, hlen⟩ := hspared.state
    exact stands_of_kept h hL' hk hlen

theorem removeStage_fails (hN : 0 < N) (h : Holds st L) {p : CoordPath N} {e : Stop MapError}
    (hx : removeStage p st = .error e st') : Stands L.slot st' (L.contents : PathMap N) := by
  obtain ⟨q, c, hq, -⟩ := coords_split hN p
  exact stands_of_faulted h ((removeStage_spec h.mount hN hq).error hx)

/-- A call returned what the map returns, or nothing happened to the map. -/
inductive Acts (slot : ℕ) (f : PathMap N) : Step N → Reply N → CoordMapStore 64 N σ → Prop where
  | answered {c : MapCall N} {a : Answer N} {st' : CoordMapStore 64 N σ}
    (reply : .ok a = (MapCall.onMap (slot - lengthBytes) c f).1)
    (stands : Stands slot st' (MapCall.onMap (slot - lengthBytes) c f).2) :
    Acts slot f (.call (.map c)) (.ok a) st'
  | silent {x : Step N} {r : Reply N} {st' : CoordMapStore 64 N σ} (quiet : returned x r = none)
    (stands : Stands slot st' f) : Acts slot f x r st'

theorem Acts.skipped {r : Reply N} (h : Acts slot f x r st') (hr : returned x r = none) :
    Stands slot st' f := by
  cases h with
  | answered => cases hr
  | silent _ hstands => exact hstands

theorem Acts.kept {r : Reply N} (h : Acts slot f x r st') (hr : returned x r = some c) :
    r = (MapCall.onMap (slot - lengthBytes) c f).1 ∧
      Stands slot st' (MapCall.onMap (slot - lengthBytes) c f).2 := by
  cases h with
  | answered hreply hstands =>
    cases hr
    exact ⟨hreply, hstands⟩
  | silent hnone _ => cases hnone.symm.trans hr

abbrev ActsOn (x : Step N) (st : CoordMapStore 64 N σ) (L : Layout) : Prop :=
  Ensures x.program st (fun a st' => Acts L.slot L.contents x (.ok a) st')
    (fun e st' => Acts L.slot L.contents x (.error e) st')

omit [ByteOrigin σ] in
theorem returned_error (x : Step N) (e : Stop MapError) : returned x (.error e) = none := by
  cases x with
  | call c => cases c <;> rfl
  | reopen d => rfl

theorem put_acts (hN : 0 < N) (h : Holds st L) {p : CoordPath N} {v : Value}
    (hc : ¬Late st (.put p v)) : ActsOn (.call (.map (.put p v))) st L := by
  have hput : Ensures (putPath p v.val) st
      (fun r st' => Acts L.slot L.contents (.call (.map (.put p v))) (.ok (.value r)) st')
      (fun e st' => Acts L.slot L.contents (.call (.map (.put p v))) (.error e) st') := by
    constructor
    · intro r st' hx
      obtain ⟨⟨hvalue, hholds, -⟩, -⟩ := (putPath_spec h hN p v.property).ok hx
      rcases put_cases h.mount.valid p v.val with hlarge | hs | ho
      · rw [put_tooLarge hlarge] at hvalue
        cases hvalue
      · apply Acts.answered
        · rw [MapCall.onMap, if_neg hs.small, Except.ok.inj (hvalue.symm.trans hs.reply)]
        · rw [MapCall.onMap, if_neg hs.small]
          exact ⟨_, hholds, hs.slot, hs.contents⟩
      · cases hvalue.symm.trans ho.reply
    · intro e st' hx
      apply Acts.silent (returned_error _ e)
      rw [putPath_split, bind_apply] at hx
      cases hstage : putStage p v.val st with
      | ok s st₁ =>
        rw [hstage] at hx
        exact absurd ⟨s, st₁, e, st', hstage, hx⟩ hc
      | error e' st₁ =>
        rw [hstage] at hx
        cases hx
        exact putStage_fails hN h hstage
  apply hput.andThen
  exact fun r st' hr => ensures_pure.mpr hr

theorem remove_acts (hN : 0 < N) (h : Holds st L) {p : CoordPath N} (hc : ¬Late st (.remove p)) :
    ActsOn (.call (.map (.remove p))) st L := by
  have hremove : Ensures (removePath p) st
      (fun r st' => Acts L.slot L.contents (.call (.map (.remove p))) (.ok (.value r)) st')
      (fun e st' => Acts L.slot L.contents (.call (.map (.remove p))) (.error e) st') := by
    constructor
    · intro r st' hx
      obtain ⟨⟨hvalue, hholds, -⟩, -⟩ := (removePath_spec h hN p).ok hx
      obtain ⟨hreply, hcontents, hslot, -⟩ := remove_contents L p
      apply Acts.answered
      · rw [Except.ok.inj (hvalue.symm.trans hreply)]
        rfl
      · exact ⟨_, hholds, hslot, hcontents⟩
    · intro e st' hx
      apply Acts.silent (returned_error _ e)
      rw [removePath_split, bind_apply] at hx
      cases hstage : removeStage p st with
      | ok s st₁ =>
        rw [hstage] at hx
        exact absurd ⟨s, st₁, e, st', hstage, hx⟩ hc
      | error e' st₁ =>
        rw [hstage] at hx
        cases hx
        exact removeStage_fails hN h hstage
  apply hremove.andThen
  exact fun r st' hr => ensures_pure.mpr hr

theorem clear_acts (hN : 0 < N) (h : Holds st L) (hc : ¬Late st .clear) :
    ActsOn (.call (.map .clear)) st L := by
  have hvalid := h.mount.valid
  have hspec := clearChecked_spec hN hvalid.slot_ge hvalid.slot_lt h.mount.fields.slot
    h.mount.fields.nodeSize
  have hclear : Ensures clearChecked st (fun _ st' => Cleared L.slot st') fun _ _ => False :=
    ⟨hspec.ok, fun hx => hc ⟨_, _, hx⟩⟩
  apply hclear.bind
  · intro _ st' hcleared
    exact ensures_pure.mpr (.answered rfl ⟨_, hcleared.holds, rfl, contents_empty hN L.slot⟩)
  · exact fun _ _ hf => hf.elim

theorem get_acts (hN : 0 < N) (h : Holds st L) (p : CoordPath N) :
    ActsOn (.call (.map (.get p))) st L := by
  apply (getPath_spec h.mount.readable hN p).bind
  · intro r st' hr
    obtain ⟨rfl, hsame⟩ := hr
    exact ensures_pure.mpr (.answered rfl ⟨L, h.congr hsame, rfl, rfl⟩)
  · exact fun e st' hf => .silent (returned_error _ e) (stands_of_faulted h hf)

theorem reads_same : ReadsKeep fun m : Mount N σ => (m.strategy, image m) := by
  intro offset n m
  apply (readOrigin_spec m offset n).mono
  · exact fun _ _ hm => Prod.ext hm.2.strategy hm.2.image
  · intro e m' hf
    have hsame := hf.state.2
    exact Prod.ext hsame.strategy hsame.image

theorem entries_same (st : CoordMapStore 64 N σ) :
    Ensures entries st (fun _ st' => SameStore st st') fun _ st' => SameStore st st' := by
  have hsame : ∀ {st' : CoordMapStore 64 N σ},
      ((st'.mount.strategy, image st'.mount), st'.len, st'.dirty) =
        ((st.mount.strategy, image st.mount), st.len, st.dirty) → SameStore st st' := by
    intro st' heq
    obtain ⟨hmount, hrest⟩ := Prod.mk.inj heq
    obtain ⟨hstrategy, himage⟩ := Prod.mk.inj hmount
    obtain ⟨hlen, hdirty⟩ := Prod.mk.inj hrest
    exact ⟨⟨hstrategy, himage⟩, hlen, hdirty⟩
  exact (keeps_entries reads_same st).mono (fun _ _ heq => hsame heq) fun _ _ heq => hsame heq

theorem reopen_holds (hN : 0 < N) (hN' : N ≤ maxStoreDepth) (h : Holds st L) (d : SlotSize) :
    Ensures (reopen d) st (fun _ st' => Holds st' L) fun _ st' => Holds st' L := by
  apply (flush_written st).bind
  · intro _ st₁ hw
    have hflush := hw.flushed h
    apply ensures_reload
    · intro st₂ hload
      have hop := opened_of_header hN' d.property.1 hflush.header
        (loadable_live hflush.holds hN) hload
      exact hop.holds hflush.holds rfl
    · exact fun _ _ => hflush.holds
  · intro e st₁ hf
    exact hf.state.2.holds h

/-- A step that fails early, or is no call on the map, leaves the map alone. -/
theorem silent_acts {x : MapProgram 64 N σ (Answer N)} {r : Step N} (hr : ∀ a, returned r a = none)
    (hx : Ensures x st (fun _ st' => Holds st' L) fun _ st' => Holds st' L) :
    Ensures x st (fun a st' => Acts L.slot L.contents r (.ok a) st')
      fun e st' => Acts L.slot L.contents r (.error e) st' :=
  hx.mono (fun _ _ h => .silent (hr _) ⟨L, h, rfl, rfl⟩) fun _ _ h => .silent (hr _) ⟨L, h, rfl, rfl⟩

theorem step_actsOn (hN : 0 < N) (hN' : N ≤ maxStoreDepth) (h : Holds st L) (hx : Early x st) :
    ActsOn x st L := by
  cases x with
  | call c =>
    cases c with
    | map c =>
      cases c with
      | get p => exact get_acts hN h p
      | put p v => exact put_acts hN h hx
      | remove p => exact remove_acts hN h hx
      | clear => exact clear_acts hN h hx
    | iter =>
      apply silent_acts fun _ => rfl
      apply (entries_same st).bind
      · exact fun _ st' hs => ensures_pure.mpr (h.congr hs)
      · exact fun _ st' hs => h.congr hs
    | len =>
      apply silent_acts fun _ => rfl
      change Ensures (get >>= _) _ _ _
      rw [ensures_bind, ensures_get, ensures_pure]
      exact h
    | flush =>
      apply silent_acts fun _ => rfl
      apply (flush_written st).bind
      · exact fun _ st' hw => ensures_pure.mpr (hw.flushed h).holds
      · intro e st' hf
        exact hf.state.2.holds h
  | reopen d =>
    apply silent_acts fun _ => rfl
    apply (reopen_holds hN hN' h d).bind
    · exact fun _ st' hst' => ensures_pure.mpr hst'
    · exact fun _ _ hst' => hst'

/-- A step that does not fail late acts on the map, or not at all. -/
theorem step_acts (hN : 0 < N) (hN' : N ≤ maxStoreDepth) (h : Stands slot st f)
    (hx : Early x st) : Acts slot f x (x.perform st).1 (x.perform st).2 := by
  obtain ⟨L, hL, rfl, rfl⟩ := h
  rw [Step.perform]
  rcases answer_cases (step_actsOn hN hN' hL hx) with ⟨a, st', hrun, ha⟩ | ⟨e, st', hrun, he⟩
  · rw [hrun]
    exact ha
  · rw [hrun]
    exact he

def heard (xs : List (Step N)) (st : CoordMapStore 64 N σ) : List (MapCall N × Reply N) :=
  kept returned xs (run Step.perform xs st).1

def mapAfter (slot : ℕ) (xs : List (Step N)) (st : CoordMapStore 64 N σ) (f : PathMap N) :
    List (Reply N) × PathMap N :=
  run (MapCall.onMap (slot - lengthBytes)) ((heard xs st).map Prod.fst) f

theorem run_acts (hN : 0 < N) (hN' : N ≤ maxStoreDepth) {xs : List (Step N)}
    (hxs : EarlyRun xs st) (h : Stands slot st f) :
    (heard xs st).map Prod.snd = (mapAfter slot xs st f).1 ∧
      Stands slot (run Step.perform xs st).2 (mapAfter slot xs st f).2 := by
  apply run_simulation_guarded (P := Early)
  · exact fun x s g hx hs hnone => (step_acts hN hN' hs hx).skipped hnone
  · exact fun x s g c hx hs hsome => (step_acts hN hN' hs hx).kept hsome
  · exact hxs
  · exact h

end Chton.FailedCalls
