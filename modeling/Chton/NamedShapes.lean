import Chton.RecoverableStores

/-!
# Images name their shape

The header records the depth and the slot size. As soon as one was written, the image opens at
its own depth only, there with the slot size it was made with, whatever the caller proposes. An
image without a header opens at every depth, as a fresh store over the bytes that are there.
-/

namespace Chton.NamedShapes
open OutcomePrograms CallRuns ByteRegions Origins TreeStrategyProgram CoordMapProgram StoreLayouts
open StoreLayouts.Layout LayoutImages ImageEdits StrategyCalls StoreRepresentations RecordCalls
open HeaderCalls MapCalls MapUpdates Enumerations StoreReopening StoreRuns RecoverableStores

variable {N M : ℕ} {σ : Type} [ByteOrigin σ] {st st' : CoordMapStore 64 N σ} {L : Layout} {slot : ℕ}

def stamps : Step N → Bool
  | .call (.map .clear) => true
  | .call .flush => true
  | .reopen _ => true
  | _ => false

inductive Stamp (N slot : ℕ) (b : Bytes) : Bool → Prop
  | blank (zeros : Blank b) : Stamp N slot b false
  | header (s : TreeStrategy N) (head : HeaderAt b s) (loadable : Loadable b s)
    (size : s.recordSlotSize = slot) : Stamp N slot b true

theorem Stamp.stays {b b' : Bytes} {stamped : Bool} (h : Stamp N slot b stamped)
    (hframe : Framed b b' rootOffset (2 ^ 64)) : Stamp N slot b' stamped := by
  cases h with
  | blank zeros =>
    apply Stamp.blank
    intro i hi
    rw [hframe.same i (.inl hi), zeros i hi]
  | header s head loadable size =>
    have hlen := hframe.length_le
    apply Stamp.header s ⟨head.room.trans hlen, ?_⟩ ?_ size
    · rw [← head.bytes]
      exact take_congr head.room (head.room.trans hlen) fun i hi => hframe.same i (.inl hi)
    · exact { loadable with free_lt := loadable.free_lt.imp_right fun hlt => hlt.trans_le hlen }

theorem stamp_live (hN : 0 < N) (h : Holds st L) (hhead : HeaderAt (image st.mount) (liveFields st)) :
    Stamp N L.slot (image st.mount) true :=
  .header _ hhead (loadable_live h hN) h.mount.fields.slot

/-- The slot size never changes, and the header is there once it was written. -/
structure Stamped (slot : ℕ) (st : CoordMapStore 64 N σ) (stamped : Bool) : Prop where
  refines : ∃ L, Refines st L ∧ L.slot = slot
  stamp : Stamp N slot (image st.mount) stamped

omit [ByteOrigin σ] in
theorem ensures_done {I : CoordMapStore 64 N σ → Prop} {α : Type} {x : MapProgram 64 N σ α}
    {f : α → Answer N} (hx : Ensures x st (fun _ s => I s) fun _ s => I s) :
    Ensures (x >>= fun a => pure (f a)) st (fun _ s => I s) fun _ s => I s :=
  hx.bind (fun _ _ hs => ensures_pure.mpr hs) fun _ _ hs => hs

/-- A put, a removal or a read leaves the bytes before the root alone. -/
theorem step_framed (hfail : NeverFails σ) (hN : 0 < N) (h : Refines st L) {x : Step N}
    (hx : stamps x = false) :
    Framed (image st.mount) (image (x.perform st).2.mount) rootOffset (2 ^ 64) := by
  have hsame : ∀ {s : CoordMapStore 64 N σ}, SameStore st s →
      Framed (image st.mount) (image s.mount) rootOffset (2 ^ 64) :=
    fun hs => (follows_of_same hs.mount L).header
  apply (ensures_answer (I := fun s : CoordMapStore 64 N σ =>
    Framed (image st.mount) (image s.mount) rootOffset (2 ^ 64))).mp
  cases x with
  | reopen d => cases hx
  | call c =>
    cases c with
    | flush => cases hx
    | len =>
      change Ensures (get >>= _) _ _ _
      rw [ensures_bind, ensures_get, ensures_pure]
      exact Framed.refl ..
    | iter =>
      exact ensures_done ((entries_spec hN h.holds.mount h.synced).mono (fun _ _ hs => hsame hs.2)
        fun _ _ hf => (not_faulted hfail hf).elim)
    | map c =>
      cases c with
      | clear => cases hx
      | get p =>
        exact ensures_done ((getPath_spec h.holds.mount.readable hN p).mono
          (fun _ _ hs => hsame hs.2) fun _ _ hf => (not_faulted hfail hf).elim)
      | put p v =>
        apply ensures_done
        apply (putPath_spec h.holds hN p v.property).mono
        · exact fun _ _ hdone => hdone.1.follows.header
        · exact fun _ _ he => he.elim (fun href => href.follows.header)
            fun hb => (not_broken hfail hb).elim
      | remove p =>
        exact ensures_done ((removePath_spec h.holds hN p).mono
          (fun _ _ hdone => hdone.1.follows.header) fun _ _ hb => (not_broken hfail hb).elim)

/-- A clearing, a flush or a reopening writes the header. -/
theorem step_stamps (hfail : NeverFails σ) (hN : 0 < N) (hN' : N ≤ maxStoreDepth)
    (h : Refines st L) {x : Step N} (hx : stamps x = true) :
    Stamp N L.slot (image (x.perform st).2.mount) true := by
  apply (ensures_answer (I := fun s : CoordMapStore 64 N σ =>
    Stamp N L.slot (image s.mount) true)).mp
  cases x with
  | reopen d =>
    apply ensures_done
    apply (flush_spec h.holds).bind
    · intro _ st₁ hflush
      apply ensures_reload
      · intro st₂ hload
        have hop := opened_of_header hN' d.property.1 hflush.header
          (loadable_live hflush.holds hN) hload
        have hi : image st₂.mount = image st₁.mount := hop.image
        rw [hi]
        exact stamp_live hN hflush.holds hflush.header
      · exact fun _ _ => stamp_live hN hflush.holds hflush.header
    · exact fun _ _ hb => (not_broken hfail hb).elim
  | call c =>
    cases c with
    | len => cases hx
    | iter => cases hx
    | flush =>
      exact ensures_done ((flush_spec h.holds).mono
        (fun _ _ hflush => stamp_live hN hflush.holds hflush.header)
        fun _ _ hb => (not_broken hfail hb).elim)
    | map c =>
      cases c with
      | get p => cases hx
      | put p v => cases hx
      | remove p => cases hx
      | clear =>
        have hmount := h.holds.mount
        apply ensures_done
        apply (clearChecked_spec hN hmount.valid.slot_ge hmount.valid.slot_lt hmount.fields.slot
          hmount.fields.nodeSize).mono
        · intro _ st' hclear
          have hlen : st'.len = 0 := by rw [hclear.holds.len, live_empty hN, Set.ncard_empty]
          have hfields : liveFields st' = freshFields N L.slot := by
            rw [liveFields, hclear.strategy, hlen]
            rfl
          exact stamp_live (L := empty L.slot) hN hclear.holds (hfields ▸ hclear.header)
        · exact fun _ _ hb => (not_broken hfail hb).elim

theorem step_stamped (hfail : NeverFails σ) (hN : 0 < N) (hN' : N ≤ maxStoreDepth) {stamped : Bool}
    (h : Stamped slot st stamped) (x : Step N) :
    Stamped slot (x.perform st).2 (stamped || stamps x) := by
  obtain ⟨⟨L, hL, rfl⟩, hstamp⟩ := h
  obtain ⟨-, hrefines⟩ := x.perform_eq hfail hN hN' hL
  refine ⟨⟨_, hrefines, slot_onLayout hL.holds.mount.valid x⟩, ?_⟩
  cases hx : stamps x with
  | true =>
    rw [Bool.or_true]
    exact step_stamps hfail hN hN' hL hx
  | false =>
    rw [Bool.or_false]
    exact hstamp.stays (step_framed hfail hN hL hx)

theorem run_stamped (hfail : NeverFails σ) (hN : 0 < N) (hN' : N ≤ maxStoreDepth) {stamped : Bool}
    (h : Stamped slot st stamped) (xs : List (Step N)) :
    Stamped slot (run Step.perform xs st).2 (stamped || xs.any stamps) := by
  induction xs generalizing st stamped with
  | nil => simpa using h
  | cons x xs ih => simpa [Bool.or_assoc] using ih (step_stamped hfail hN hN' h x)

theorem load_refuses {m : Mount M σ} {s : TreeStrategy N} (hfail : NeverFails σ)
    (hN : N ≤ maxStoreDepth) (hM : M ≠ N) (hb : HeaderAt (image m) s)
    (hs : Loadable (image m) s) :
    Ensures load m (fun _ _ => False) fun e _ => e = corruptHeader := by
  have hfields := headerFields_headerBytes hN hs.toFieldsFit
  rw [load]
  apply (originLen_spec m).andThen
  intro len m hlen
  obtain ⟨rfl, rfl⟩ := hlen
  rw [if_neg (Nat.not_lt.mpr hb.room)]
  refine (readOrigin_spec m 0 headerLen).bind ?_ fun e _ hf => (hfail hf.state.1).elim
  intro data m₁ hdata
  rw [hdata.1, headerBuffer hb.room, hb.bytes]
  dsimp only
  rw [hfields.magic, if_neg (by simp), ensures_bind, ensures_get, hfields.depth,
    if_pos (.inl hM.symm), ensures_throw]

/-- A header of another depth is refused. -/
theorem load_otherDepth {o : σ} {d : ℕ} {s : TreeStrategy N} (hfail : NeverFails σ)
    (hN : N ≤ maxStoreDepth) (hd : 8 ≤ d) (hM : M ≠ N) (ho : HeaderAt (ByteOrigin.bytes o) s)
    (hs : Loadable (ByteOrigin.bytes o) s) :
    (CoordMapStore.load o d : Except (Stop MapError) (CoordMapStore 64 M σ)) =
      .error (.err (.binding (.corrupt 0 0))) := by
  obtain ⟨st, -, hfalse, -⟩ | ⟨e, m, he, rfl⟩ :=
    load_cases hd (load_refuses (m := ⟨freshFields M d, o⟩) hfail hN hM ho hs)
  · exact hfalse.elim
  · exact he

/-- What opening an image makes of it, at any depth and with any proposed slot size. -/
structure Opens (N slot : ℕ) (o : σ) (stamped : Bool) : Prop where
  fresh : stamped = false → ∀ (M : ℕ) (d : SlotSize), ∃ st : CoordMapStore 64 M σ,
    CoordMapStore.load o d.val = .ok st ∧ Opened o (freshFields M d.val) st
  adopted : stamped = true → ∀ d : SlotSize, ∃ st : CoordMapStore 64 N σ,
    CoordMapStore.load o d.val = .ok st ∧ st.recordSlotSize = slot
  refused : stamped = true → ∀ (M : ℕ) (d : SlotSize), M ≠ N →
    (CoordMapStore.load o d.val : Except (Stop MapError) (CoordMapStore 64 M σ)) =
      .error (.err (.binding (.corrupt 0 0)))

theorem Stamp.opens (hfail : NeverFails σ) (hN : N ≤ maxStoreDepth) {o : σ} {stamped : Bool}
    (h : Stamp N slot (ByteOrigin.bytes o) stamped) : Opens N slot o stamped := by
  cases h with
  | blank zeros =>
    refine ⟨fun _ M d => ?_, fun hfalse => Bool.noConfusion hfalse,
      fun hfalse => Bool.noConfusion hfalse⟩
    exact load_noHeader hfail d.property.1 (noHeader_of_blank zeros)
  | header s head loadable size =>
    refine ⟨fun hfalse => Bool.noConfusion hfalse, fun _ d => ?_, fun _ M d hM => ?_⟩
    · obtain ⟨st, hload, hop⟩ := load_header hfail hN d.property.1 head loadable
      refine ⟨st, hload, ?_⟩
      rw [CoordMapStore.recordSlotSize, hop.strategy, size]
    · exact load_otherDepth hfail hN d.property.1 hM head loadable

/-- After any run, the image of a store opens at its own depth only and with its own slot size, if
the run has a flush, a clearing or a reopening, and otherwise at every depth as a fresh store. -/
theorem images_name_their_shape (hfail : NeverFails σ) (hN : 0 < N) (hN' : N ≤ maxStoreDepth)
    {o : σ} (ho : ByteOrigin.bytes o = []) (d : SlotSize) :
    ∃ st : CoordMapStore 64 N σ, CoordMapStore.new o d.val = .ok st ∧ ∀ xs : List (Step N),
      Opens N d.val (run Step.perform xs st).2.mount.origin (xs.any stamps) := by
  obtain ⟨st, hnew, hst, rfl⟩ := refines_new ho hN d
  refine ⟨st, hnew, fun xs => ?_⟩
  have hblank : Stamp N d.val (image st.mount) false := by
    apply Stamp.blank
    rw [show image st.mount = [] from ho]
    exact blank_nil
  have hrun := run_stamped hfail hN hN' ⟨⟨_, hst, rfl⟩, hblank⟩ xs
  rw [Bool.false_or] at hrun
  exact hrun.stamp.opens hfail hN'

theorem images_name_their_shape_ideal :
    ∃ st : CoordMapStore 64 3 IdealOrigin, CoordMapStore.new ⟨[]⟩ 32 = .ok st ∧
      ∀ xs : List (Step 3),
        Opens 3 32 (run Step.perform xs st).2.mount.origin (xs.any stamps) :=
  images_name_their_shape IdealOrigin.neverFails (by decide) (by decide) rfl ⟨32, by decide⟩

end Chton.NamedShapes
