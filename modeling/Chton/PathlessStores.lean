import Chton.StoreRuns

/-!
# Stores of depth zero

A store of depth zero has no tree level to look a path up in: every call on a path is
refused with `KeyTooLong` and writes nothing, so the allocator and the length stay as
they were created. The results on stores that allow depth zero treat it separately.
-/

namespace Chton.PathlessStores
open OutcomePrograms CallRuns ByteRegions Origins TreeStrategyProgram CoordMapProgram
open StoreLayouts StrategyCalls RecordCalls HeaderCalls MapCalls MapUpdates StoreReopening
open StoreRuns

variable {σ : Type} [ByteOrigin σ] {st : CoordMapStore 64 0 σ} {slot : ℕ}

/-- The error of every lookup. -/
abbrev noLevel : Stop MapError := .err (.binding (.keyTooLong 0))

/-- Nothing was ever allocated. -/
structure Pathless (slot : ℕ) (st : CoordMapStore 64 0 σ) : Prop where
  strategy : st.mount.strategy = freshFields 0 slot
  len : st.len = 0
  slot_ge : 8 ≤ slot
  slot_lt : slot < 2 ^ 64

omit [ByteOrigin σ] in
theorem coords_pathless (p : CoordPath 0) : p.coords = [] :=
  List.length_eq_zero_iff.mp p.length_coords

theorem getPath_pathless (st : CoordMapStore 64 0 σ) (p : CoordPath 0) :
    getPath p st = .error noLevel st := by
  rw [getPath, locate, coords_pathless p]
  rfl

theorem removePath_pathless (st : CoordMapStore 64 0 σ) (p : CoordPath 0) :
    removePath p st = .error noLevel st := by
  rw [removePath, locate, coords_pathless p]
  rfl

omit [ByteOrigin σ] in
theorem recordSlotSize_pathless (h : Pathless slot st) :
    st.mount.strategy.recordSlotSize = slot := by
  rw [h.strategy, freshFields]

theorem putPath_pathless (h : Pathless slot st) (p : CoordPath 0) (v : Bytes) :
    Ensures (putPath p v) st (fun _ _ => False) (Refused fun _ st' => st' = st) := by
  apply (maxValueLen_spec (recordSlotSize_pathless h) h.slot_ge h.slot_lt).andThen
  intro maxLen st' hmax
  obtain ⟨-, rfl⟩ := hmax
  refine ensures_ite (fun _ => ?_) fun _ => ?_
  · rw [ensures_throw]
    rfl
  · have hnone : onStrategy (locateOrCreate p) st' = .error noLevel st' := by
      rw [locateOrCreate, coords_pathless p]
      rfl
    rw [ensures_bind, ensures_of_error hnone]
    rfl

omit [ByteOrigin σ] in
theorem liveFields_pathless (h : Pathless slot st) : liveFields st = freshFields 0 slot := by
  rw [liveFields, h.strategy, h.len]
  rfl

omit [ByteOrigin σ] in
theorem Pathless.congr {st' : CoordMapStore 64 0 σ} (h : Pathless slot st)
    (hs : st'.mount.strategy = freshFields 0 slot) (hl : st'.len = st.len) : Pathless slot st' :=
  ⟨hs, hl.trans h.len, h.slot_ge, h.slot_lt⟩

/-- Clearing has nothing to reset, whether it fails or not. -/
theorem clear_pathless (h : Pathless slot st) :
    Ensures clearChecked st (fun _ st' => Pathless slot st' ∧ Emptied slot st st')
      (Refused fun _ st' => ByteOrigin.mayFail σ ∧ Pathless slot st') := by
  have hnode : st.mount.strategy.nodeSize = nodeSpan := by rw [h.strategy, freshFields]
  refine (clearChecked_emptied (recordSlotSize_pathless h) hnode).mono ?_ ?_
  · intro _ st' hst'
    exact ⟨h.congr hst'.strategy (hst'.len.trans h.len.symm), hst'⟩
  · intro _ st' hf
    exact hf.mono fun _ _ hs => ⟨hs.1, h.congr hs.2.strategy hs.2.len⟩

theorem flush_pathless (h : Pathless slot st) :
    Ensures flush st (fun _ st' => Pathless slot st' ∧ FlushWritten st st')
      (Refused fun _ st' => ByteOrigin.mayFail σ ∧ Pathless slot st') := by
  refine (flush_written st).mono ?_ ?_
  · intro _ st' hst'
    exact ⟨h.congr (hst'.strategy.trans (liveFields_pathless h)) hst'.len, hst'⟩
  · intro _ st' hf
    exact hf.mono fun _ _ hs =>
      ⟨hs.1, h.congr (hs.2.strategy.trans (liveFields_pathless h)) hs.2.len⟩

omit [ByteOrigin σ] in
theorem loadable_fresh {b : Bytes} (h8 : 8 ≤ slot) (h64 : slot < 2 ^ 64) :
    Loadable b (freshFields 0 slot) := by
  have hnode : nodeSpan = 90773 := rfl
  have hroot : rootOffset = 64 := rfl
  refine ⟨⟨?_, Nat.two_pow_pos 64, ?_, h64, Nat.two_pow_pos 64⟩, rfl, h8, le_rfl, .inl rfl⟩
  · change rootOffset + nodeSpan < 2 ^ 64
    omega
  · change nodeSpan < 2 ^ 64
    omega

/-- Opening bytes with the fresh header, or without any, finds nothing allocated. -/
theorem load_pathless {o : σ} (hfail : NeverFails σ) (d : SlotSize) (h8 : 8 ≤ slot)
    (h64 : slot < 2 ^ 64)
    (ho : HeaderAt (ByteOrigin.bytes o) (freshFields 0 slot) ∨ NoHeader (ByteOrigin.bytes o)) :
    ∃ st' : CoordMapStore 64 0 σ, CoordMapStore.load o d.val = .ok st' ∧ st'.dirty = false ∧
      image st'.mount = ByteOrigin.bytes o ∧ ∃ slot', Pathless slot' st' := by
  cases ho with
  | inl ho =>
    obtain ⟨st', hload, hop⟩ :=
      load_header hfail (Nat.zero_le _) d.property.1 ho (loadable_fresh h8 h64)
    exact ⟨st', hload, hop.dirty, hop.image, slot, hop.strategy, hop.len, h8, h64⟩
  | inr ho =>
    obtain ⟨st', hload, hop⟩ := load_noHeader hfail d.property.1 ho
    exact ⟨st', hload, hop.dirty, hop.image, d.val, hop.strategy, hop.len, d.property.1, d.property.2⟩

/-- A refused call with the state it found. -/
theorem perform_of_error {c : MapCall 0} {e : Stop MapError} {st st' : CoordMapStore 64 0 σ}
    (h : c.program st = .error e st') : c.perform st = (.error e, st') := answer_of_error h

theorem get_pathless (st : CoordMapStore 64 0 σ) (p : CoordPath 0) :
    (MapCall.get p).perform st = (.error noLevel, st) := by
  apply perform_of_error
  rw [MapCall.program, bind_apply, getPath_pathless]

theorem remove_pathless (st : CoordMapStore 64 0 σ) (p : CoordPath 0) :
    (MapCall.remove p).perform st = (.error noLevel, st) := by
  apply perform_of_error
  rw [MapCall.program, bind_apply, removePath_pathless]

theorem put_pathless (h : Pathless slot st) (p : CoordPath 0) (v : Value) :
    ∃ e, (MapCall.put p v).perform st = (.error e, st) := by
  have hput : Ensures (MapCall.put p v).program st (fun _ _ => False)
      (Refused fun _ st' => st' = st) :=
    (putPath_pathless h p v.val).andThen fun _ _ hf => hf.elim
  rcases answer_cases hput with ⟨a, st', -, hf⟩ | ⟨e, st', hx, hst⟩
  · exact hf.elim
  · cases e with
    | err e =>
      cases hst
      exact ⟨.err e, hx⟩
    | panic p => exact hst.elim

theorem entries_pathless (st : CoordMapStore 64 0 σ) : entries st = .ok [] st := rfl

theorem reload_pathless (h : Pathless slot st) (d : SlotSize)
    (hhead : HeaderAt (image st.mount) (freshFields 0 slot)) :
    Ensures (reload d) st (fun _ st' => Pathless slot st') fun _ st' => Pathless slot st' := by
  apply ensures_reload
  · intro st' hload
    have hop := opened_of_header (Nat.zero_le _) d.property.1 hhead
      (loadable_fresh h.slot_ge h.slot_lt) hload
    exact h.congr hop.strategy (hop.len.trans h.len.symm)
  · exact fun _ _ => h

theorem program_pathless (h : Pathless slot st) (x : Step 0) :
    Ensures x.program st (fun _ st' => Pathless slot st') fun _ st' => Pathless slot st' := by
  have hflush : Ensures flush st (fun _ st' => Pathless slot st' ∧ FlushWritten st st')
      fun _ st' => Pathless slot st' :=
    (flush_pathless h).mono (fun _ _ h => h) fun _ _ hf => hf.state.2
  cases x with
  | call c =>
    cases c with
    | map c =>
      cases c with
      | get p =>
        change Ensures (getPath p >>= _) _ _ _
        rw [ensures_bind, ensures_of_error (getPath_pathless st p)]
        exact h
      | put p v =>
        apply (putPath_pathless h p v.val).bind
        · exact fun _ _ hf => hf.elim
        · exact fun _ st' hst' => hst'.state ▸ h
      | remove p =>
        change Ensures (removePath p >>= _) _ _ _
        rw [ensures_bind, ensures_of_error (removePath_pathless st p)]
        exact h
      | clear =>
        apply (clear_pathless h).bind
        · exact fun _ _ hc => ensures_pure.mpr hc.1
        · exact fun _ _ hf => hf.state.2
    | iter =>
      change Ensures (entries >>= _) _ _ _
      rw [ensures_bind, ensures_of_ok (entries_pathless st), ensures_pure]
      exact h
    | len =>
      change Ensures (get >>= _) _ _ _
      rw [ensures_bind, ensures_get, ensures_pure]
      exact h
    | flush => exact hflush.andThen fun _ _ hc => ensures_pure.mpr hc.1
  | reopen d =>
    apply Ensures.bind (Q := fun _ st' => Pathless slot st')
    · apply hflush.andThen
      intro _ st₁ hst₁
      apply reload_pathless hst₁.1
      rw [hst₁.2.image, liveFields_pathless h]
      exact headerAt_overlay ..
    · exact fun _ _ hst' => ensures_pure.mpr hst'
    · exact fun _ _ hst' => hst'

/-- Nothing is ever allocated, whatever is called and whether or not it fails. -/
theorem step_pathless (h : Pathless slot st) (x : Step 0) : Pathless slot (x.perform st).2 := by
  rw [Step.perform]
  rcases answer_cases (program_pathless h x) with ⟨a, st', hx, hst'⟩ | ⟨e, st', hx, hst'⟩
  · rw [hx]
    exact hst'
  · rw [hx]
    exact hst'

theorem run_pathless (h : Pathless slot st) (xs : List (Step 0)) :
    Pathless slot (run Step.perform xs st).2 :=
  run_invariant (fun x _ _ hs => step_pathless hs x) h

omit [ByteOrigin σ] in
theorem pathless_new [Origin σ] (o : σ) (d : SlotSize) :
    ∃ st : CoordMapStore 64 0 σ, CoordMapStore.new o d.val = .ok st ∧ Pathless d.val st ∧
      st.mount.origin = o :=
  ⟨_, new_spec o d.property.1, ⟨rfl, rfl, d.property.1, d.property.2⟩, rfl⟩

end Chton.PathlessStores
