import Chton.FiniteMaps
import Chton.PathlessStores

/-!
# Sound stores, at every depth

A sound store is one that its own calls can leave behind: it refines a layout, or it has
no tree level at all. What its callers see of it is what `get_path` returns and `len`.
-/

namespace Chton.SoundStores
open OutcomePrograms CallRuns ByteRegions Origins TreeStrategyProgram CoordMapProgram
open StoreLayouts StoreLayouts.Layout StrategyCalls StoreRepresentations RecordCalls HeaderCalls
open MapCalls MapUpdates LayoutContents StoreReopening StoreRuns FiniteMaps PathlessStores

variable {N : ℕ} {σ τ : Type} [ByteOrigin σ] [ByteOrigin τ]

def Sound : {N : ℕ} → CoordMapStore 64 N σ → Prop
  | 0, st => ∃ slot, Pathless slot st
  | _ + 1, st => ∃ L, Refines st L

/-- What `get_path` returns, path by path. -/
def view (st : CoordMapStore 64 N σ) (p : CoordPath N) : Reply N := ((MapCall.get p).perform st).1

def valued (st : CoordMapStore 64 N σ) : Set (CoordPath N) :=
  {p | ∃ v, view st p = .ok (.value (some v))}

variable {st : CoordMapStore 64 N σ} {L : Layout}

theorem view_of_readable (hfail : NeverFails σ) (hN : 0 < N) (h : Readable st.mount L) :
    view st = fun p => .ok (.value (L.contents p)) := by
  funext p
  have hget : Ensures (MapCall.get p).program st
      (fun a _ => a = .value (L.contents p)) fun _ _ => False := by
    refine (getPath_spec h hN p).bind ?_ fun e st' hf => not_faulted hfail hf
    intro v st' hv
    rw [ensures_pure, hv.1]
  obtain ⟨a, st', hx, rfl⟩ := answer_ok hget
  rw [view, MapCall.perform, hx]

theorem view_of_holds (hfail : NeverFails σ) (hN : 0 < N) (h : Holds st L) :
    view st = fun p => .ok (.value (L.contents p)) :=
  view_of_readable hfail hN h.mount.readable

theorem view_pathless (st : CoordMapStore 64 0 σ) : view st = fun _ => .error noLevel := by
  funext p
  rw [view, get_pathless]

theorem view_value {f : PathMap N} (h : view st = fun p => .ok (.value (f p))) :
    valued st = {p | f p ≠ none} := by
  ext p
  rw [valued, Set.mem_ofPred_eq, Set.mem_ofPred_eq, h]
  constructor
  · intro hp
    obtain ⟨v, hv⟩ := hp
    cases hf : f p with
    | none => simp [hf] at hv
    | some x => simp
  · intro hp
    obtain ⟨v, hv⟩ := Option.ne_none_iff_exists'.mp hp
    exact ⟨v, by simp only [hv]⟩

theorem len_of_holds (hfail : NeverFails σ) (hN : 0 < N) (h : Holds st L) :
    st.len = (valued st).ncard := by
  have hinj : Function.Injective (CoordPath.coords (N := N)) := fun _ _ h => CoordPath.ext h
  have himage : CoordPath.coords '' valued st = L.live N := by
    rw [view_value (view_of_holds hfail hN h)]
    ext q
    constructor
    · intro hq
      obtain ⟨p, hp, rfl⟩ := hq
      exact ⟨p.length_coords, fun h0 => hp (contents_absent h0)⟩
    · intro hq
      refine ⟨⟨q, hq.1⟩, ?_, rfl⟩
      intro h0
      exact hq.2 (contents_eq_none.mp h0)
  rw [h.len, ← himage, Set.ncard_image_of_injective _ hinj]

theorem Sound.len_eq (hfail : NeverFails σ) (h : Sound st) : st.len = (valued st).ncard := by
  cases N with
  | zero =>
    obtain ⟨slot, hst⟩ := h
    have hnone : valued st = ∅ := by
      ext p
      rw [valued, Set.mem_ofPred_eq, view_pathless]
      simp
    rw [hst.len, hnone, Set.ncard_empty]
  | succ n =>
    obtain ⟨L, hL⟩ := h
    exact len_of_holds hfail (Nat.succ_pos n) hL.holds

theorem Sound.perform (hfail : NeverFails σ) (h : Sound st) (c : StoreCall N) :
    Sound (c.perform st).2 := by
  cases N with
  | zero =>
    obtain ⟨slot, hst⟩ := h
    exact ⟨slot, step_pathless hst (.call c)⟩
  | succ n =>
    obtain ⟨L, hL⟩ := h
    exact ⟨_, (c.perform_eq hfail (Nat.succ_pos n) hL).2⟩

theorem Sound.run (hfail : NeverFails σ) (h : Sound st) (cs : List (StoreCall N)) :
    Sound (CallRuns.run StoreCall.perform cs st).2 :=
  run_invariant (fun c _ _ hs => hs.perform hfail c) h

/-- A call on one path leaves what `get_path` returns for the others. -/
theorem Sound.apart (hfail : NeverFails σ) (h : Sound st) {c : MapCall N} {p q : CoordPath N}
    (hp : MapCall.path c = some p) (hq : q ≠ p) : view (c.perform st).2 q = view st q := by
  cases N with
  | zero => exact absurd (CoordPath.ext (by rw [coords_pathless, coords_pathless])) hq
  | succ n =>
    obtain ⟨L, hL⟩ := h
    have hst : Stands L.slot st L.contents := ⟨L, hL.holds, rfl, rfl⟩
    have hview : view st q = .ok (.value (L.contents q)) := stands_get hfail (Nat.succ_pos n) hst q
    rw [hview]
    rcases perform_cases hfail (Nat.succ_pos n) hst c with ⟨-, -, hst'⟩ | ⟨-, hst'⟩
    · rw [view, stands_get hfail (Nat.succ_pos n) hst', onMap_apart _ hp hq]
    · exact stands_get hfail (Nat.succ_pos n) hst' q

/-- The header on the origin is the one that `flush` would write. -/
def Current (st : CoordMapStore 64 N σ) : Prop := HeaderAt (image st.mount) (liveFields st)

/-- The origin holds no header and nothing was ever allocated. -/
def Unwritten (st : CoordMapStore 64 N σ) : Prop :=
  NoHeader (image st.mount) ∧ ∃ slot, liveFields st = freshFields N slot

structure Reopened (o : τ) (d : SlotSize) (st : CoordMapStore 64 N σ)
    (st' : CoordMapStore 64 N τ) : Prop where
  load : CoordMapStore.load o d.val = .ok st'
  sound : Sound st'
  view : view st' = view st
  len : st'.len = st.len
  dirty : st'.dirty = false
  image : image st'.mount = ByteOrigin.bytes o

theorem Sound.reopen (hfail : NeverFails σ) (hfail' : NeverFails τ) (hN : N ≤ maxStoreDepth)
    (h : Sound st) (hcur : Current st) {o : τ} (ho : ByteOrigin.bytes o = image st.mount)
    (d : SlotSize) : ∃ st' : CoordMapStore 64 N τ, Reopened o d st st' := by
  cases N with
  | zero =>
    obtain ⟨slot, hst⟩ := h
    have hhead : HeaderAt (ByteOrigin.bytes o) (freshFields 0 slot) := by
      rw [ho, ← liveFields_pathless hst]
      exact hcur
    obtain ⟨st', hload, hdirty, hi, slot', hst'⟩ :=
      load_pathless hfail' d hst.slot_ge hst.slot_lt (.inl hhead)
    refine ⟨st', hload, ⟨slot', hst'⟩, ?_, hst'.len.trans hst.len.symm, hdirty, hi⟩
    rw [view_pathless, view_pathless]
  | succ n =>
    obtain ⟨L, hL⟩ := h
    obtain ⟨st', hload, hop, hst'⟩ :=
      load_current hfail' (Nat.succ_pos n) hN d.property.1 hL.holds ho hcur
    refine ⟨st', hload, ⟨L, hst', ?_, hL.whole⟩, ?_, hst'.len.trans hL.holds.len.symm, hop.dirty,
      hop.image⟩
    · rw [hop.image, ho]
      exact hL.synced
    · rw [view_of_holds hfail' (Nat.succ_pos n) hst', view_of_holds hfail (Nat.succ_pos n) hL.holds]

/-- A layout whose bump pointer never moved links the root only. -/
theorem ptr_of_unmoved (h : L.Valid N) (hbump : L.bump = rootEnd) {q : List Coord} (hq : q ≠ []) :
    L.ptr q = 0 := by
  by_contra hp
  have hlo := h.entry_lower hq hp
  have hhi := h.entry_upper hq hp
  have hpos : 0 < L.spanOf N q := h.tiling.pos (.entry q) ⟨hq, hp⟩
  omega

theorem refines_unwritten {o : τ} (hN : 0 < N) (hL : Refines st L) (hbump : L.bump = rootEnd)
    (ho : ByteOrigin.bytes o = image st.mount) (d : SlotSize) {st' : CoordMapStore 64 N τ}
    (hop : Opened o (freshFields N d.val) st') : Refines st' (empty d.val) := by
  have hptr : ∀ c, L.ptr ([] ++ [c]) = 0 := fun c =>
    ptr_of_unmoved hL.holds.mount.valid hbump (by simp)
  have hroot := hL.holds.mount.valid.root
  have hi : image st'.mount = image st.mount := hop.image.trans ho
  have hne : L.ptr [] ≠ 0 := TreeDescents.root_ne_zero hL.holds.mount.valid.toWired
  refine ⟨⟨?_, ?_⟩, ?_, rfl⟩
  · refine represents_empty hN d.property.1 d.property.2 ?_ ?_ ?_
    · rw [hop.strategy]
      exact tracks_fresh d.val
    · intro c
      have hword := hL.holds.mount.stored.slots [] c hN hne
      rw [hroot, hptr] at hword
      rw [hi, hword]
    · rw [hi]
      exact hL.holds.mount.stored.root
  · rw [live_empty hN, Set.ncard_empty]
    exact hop.len
  · rw [hi]
    apply synced_empty
    intro c hocc
    have hsync := hL.synced [] c hN hne
    rw [hroot, hptr] at hsync
    exact hsync.mp hocc rfl

theorem Sound.reopen_unwritten (hfail : NeverFails σ) (hfail' : NeverFails τ) (h : Sound st)
    (hfresh : Unwritten st) {o : τ} (ho : ByteOrigin.bytes o = image st.mount) (d : SlotSize) :
    ∃ st' : CoordMapStore 64 N τ, Reopened o d st st' := by
  obtain ⟨hnone, slot, hfields⟩ := hfresh
  have hlen : st.len = 0 := congrArg TreeStrategy.recordCount hfields
  cases N with
  | zero =>
    obtain ⟨slot', hst⟩ := h
    obtain ⟨st', hload, hdirty, hi, slot'', hst'⟩ :=
      load_pathless hfail' d hst.slot_ge hst.slot_lt (.inr (ho ▸ hnone))
    refine ⟨st', hload, ⟨slot'', hst'⟩, ?_, hst'.len.trans hlen.symm, hdirty, hi⟩
    rw [view_pathless, view_pathless]
  | succ n =>
    obtain ⟨L, hL⟩ := h
    have hbump : L.bump = rootEnd := by
      rw [← hL.holds.mount.fields.bump]
      exact congrArg TreeStrategy.bump hfields
    obtain ⟨st', hload, hop⟩ := load_noHeader hfail' d.property.1 (ho ▸ hnone)
    have hst' := refines_unwritten (Nat.succ_pos n) hL hbump ho d hop
    refine ⟨st', hload, ⟨_, hst'⟩, ?_, hop.len.trans hlen.symm, hop.dirty, hop.image⟩
    rw [view_of_holds hfail' (Nat.succ_pos n) hst'.holds,
      view_of_holds hfail (Nat.succ_pos n) hL.holds, contents_empty (Nat.succ_pos n)]
    funext p
    rw [contents_absent]
    exact ptr_of_unmoved hL.holds.mount.valid hbump (coords_ne_nil (Nat.succ_pos n) p)

/-- A header that is current passes the checks of `load`. -/
theorem Sound.loadable (h : Sound st) : Loadable (image st.mount) (liveFields st) := by
  cases N with
  | zero =>
    obtain ⟨slot, hst⟩ := h
    rw [liveFields_pathless hst]
    exact loadable_fresh hst.slot_ge hst.slot_lt
  | succ n =>
    obtain ⟨L, hL⟩ := h
    exact loadable_live hL.holds (Nat.succ_pos n)

theorem Sound.view_congr (hfail : NeverFails σ) {st' : CoordMapStore 64 N σ} (h : Sound st)
    (hs : SameStore st st') : view st' = view st := by
  cases N with
  | zero => rw [view_pathless, view_pathless]
  | succ n =>
    obtain ⟨L, hL⟩ := h
    rw [view_of_holds hfail (Nat.succ_pos n) (hL.holds.congr hs),
      view_of_holds hfail (Nat.succ_pos n) hL.holds]

/-- A call that is neither `clear` nor `flush` has set the dirty flag, or changed nothing, or
was refused for lack of addresses, which its callers do not see. -/
def Quiet (st : CoordMapStore 64 N σ) (r : Reply N) (st' : CoordMapStore 64 N σ) : Prop :=
  st'.dirty = true ∨ SameStore st st' ∨
    overflows r = true ∧ st'.dirty = st.dirty ∧ st'.len = st.len ∧ view st' = view st

theorem quiet_answer {x : MapProgram 64 N σ (Answer N)}
    (h : Ensures x st (fun a st' => Quiet st (.ok a) st') fun e st' => Quiet st (.error e) st') :
    Quiet st (answer x st).1 (answer x st).2 := by
  rcases answer_cases h with ⟨a, st', hx, hst'⟩ | ⟨e, st', hx, hst'⟩
  · rw [hx]
    exact hst'
  · rw [hx]
    exact hst'

theorem quiet_put (hfail : NeverFails σ) (hN : 0 < N) (h : Holds st L) (p : CoordPath N)
    (v : Value) : Quiet st ((MapCall.put p v).perform st).1 ((MapCall.put p v).perform st).2 := by
  apply quiet_answer
  by_cases hv : v.val.length > L.slot - lengthBytes
  · refine (putPath_tooLarge h p hv).bind (fun _ _ hf => hf.elim) ?_
    intro e st' hst'
    cases hst'.2
    exact .inr (.inl (SameStore.refl st))
  · refine (putPath_spec h hN p v.property).bind ?_ ?_
    · intro a st' hdone
      rw [ensures_pure]
      exact .inl hdone.2
    · intro e st' hor
      cases hor with
      | inr hb => exact (not_broken hfail hb).elim
      | inl href =>
        rcases put_cases h.mount.valid p v.val with htoo | hs | ho
        · exact absurd htoo hv
        · have herror := hs.reply.symm.trans href.error
          cases herror
        · have herror := ho.reply.symm.trans href.error
          cases herror
          have hholds : Holds st' (L.put p v.val).2 := by
            refine ⟨href.mount, ?_⟩
            rw [live_of_kept href.kept, href.len, h.len]
          refine .inr (.inr ⟨rfl, href.dirty, href.len, ?_⟩)
          rw [view_of_holds hfail hN hholds, view_of_holds hfail hN h, contents_kept href.kept]

theorem quiet_of_same {α : Type} {x : MapProgram 64 N σ α} {f : α → Answer N} {Q : α → Prop}
    (hfail : NeverFails σ)
    (h : Ensures x st (fun a st' => Q a ∧ SameStore st st') (FaultedStore st)) :
    Quiet st (answer (x >>= fun a => pure (f a)) st).1 (answer (x >>= fun a => pure (f a)) st).2 := by
  apply quiet_answer
  refine h.bind ?_ fun e st' hf => (not_faulted hfail hf).elim
  intro a st' hst'
  rw [ensures_pure]
  exact .inr (.inl hst'.2)

/-- Calls that only read, and updates, are quiet. -/
theorem quiet_of_refines (hfail : NeverFails σ) (hN : 0 < N) (h : Refines st L) {c : StoreCall N}
    (hclear : c ≠ .map .clear) (hflush : c ≠ .flush) :
    Quiet st (c.perform st).1 (c.perform st).2 := by
  cases c with
  | map c =>
    cases c with
    | get p => exact quiet_of_same hfail (getPath_spec h.holds.mount.readable hN p)
    | put p v => exact quiet_put hfail hN h.holds p v
    | remove p =>
      apply quiet_answer
      refine (removePath_spec h.holds hN p).bind ?_ fun e st' hb => (not_broken hfail hb).elim
      intro a st' hdone
      rw [ensures_pure]
      obtain ⟨-, ⟨-, hsame⟩ | hdirty⟩ := hdone
      · exact .inr (.inl hsame)
      · exact .inl hdirty
    | clear => exact absurd rfl hclear
  | iter => exact quiet_of_same hfail (Enumerations.entries_spec hN h.holds.mount h.synced)
  | len => exact .inr (.inl (SameStore.refl st))
  | flush => exact absurd rfl hflush

theorem Sound.quiet (hfail : NeverFails σ) (h : Sound st) {c : StoreCall N}
    (hclear : c ≠ .map .clear) (hflush : c ≠ .flush) :
    Quiet st (c.perform st).1 (c.perform st).2 := by
  cases N with
  | succ n =>
    obtain ⟨L, hL⟩ := h
    exact quiet_of_refines hfail (Nat.succ_pos n) hL hclear hflush
  | zero =>
    obtain ⟨slot, hst⟩ := h
    have hsame : ∀ {r : Reply 0 × CoordMapStore 64 0 σ} {e : Stop MapError}, r = (.error e, st) →
        Quiet st r.1 r.2 := by
      intro r e hr
      rw [hr]
      exact .inr (.inl (SameStore.refl st))
    cases c with
    | map c =>
      cases c with
      | get p => exact hsame (get_pathless st p)
      | put p v =>
        obtain ⟨e, hput⟩ := put_pathless hst p v
        exact hsame hput
      | remove p => exact hsame (remove_pathless st p)
      | clear => exact absurd rfl hclear
    | iter => exact .inr (.inl (SameStore.refl st))
    | len => exact .inr (.inl (SameStore.refl st))
    | flush => exact absurd rfl hflush

theorem Sound.clear (hfail : NeverFails σ) (h : Sound st) :
    ∃ st', (StoreCall.map .clear).perform st = (.ok .done, st') ∧ Current st' ∧ st'.len = 0 ∧
      st'.dirty = false := by
  have hemptied : ∃ slot, Ensures clearChecked st (fun _ st' => Emptied slot st st')
      fun _ _ => False := by
    have hspec : ∃ slot, Ensures clearChecked st (fun _ st' => Emptied slot st st')
        (Refused fun _ st' => ByteOrigin.mayFail σ ∧ HalfCleared slot st st') := by
      cases N with
      | zero =>
        obtain ⟨slot, hst⟩ := h
        have hnode : st.mount.strategy.nodeSize = nodeSpan := by rw [hst.strategy, freshFields]
        exact ⟨slot, clearChecked_emptied (recordSlotSize_pathless hst) hnode⟩
      | succ n =>
        obtain ⟨L, hL⟩ := h
        exact ⟨L.slot, clearChecked_emptied hL.holds.mount.fields.slot
          hL.holds.mount.fields.nodeSize⟩
    obtain ⟨slot, hspec⟩ := hspec
    exact ⟨slot, hspec.mono (fun _ _ h => h) fun _ _ hf =>
      not_broken hfail (hf.mono fun _ _ hs => hs.1)⟩
  obtain ⟨slot, hemptied⟩ := hemptied
  obtain ⟨a, st', hx, hst'⟩ := answer_ok (x := (StoreCall.map (.clear : MapCall N)).program)
    (Q := fun a st' => a = .done ∧ Emptied slot st st')
    (hemptied.andThen fun _ _ hc => ensures_pure.mpr ⟨rfl, hc⟩)
  obtain ⟨rfl, hst'⟩ := hst'
  refine ⟨st', hx, ?_, hst'.len, hst'.dirty⟩
  have hfields : liveFields st' = freshFields N slot := by
    rw [liveFields, hst'.strategy, hst'.len]
    rfl
  rw [Current, hfields, hst'.image]
  exact headerAt_overlay ..

theorem Sound.flush (hfail : NeverFails σ) (h : Sound st) :
    ∃ st', StoreCall.flush.perform st = (.ok .done, st') ∧ Current st' ∧ st'.len = st.len ∧
      view st' = view st ∧ st'.dirty = false := by
  have hwritten : Ensures CoordMapProgram.flush st (fun _ st' => FlushWritten st st')
      fun _ _ => False :=
    (flush_written st).mono (fun _ _ h => h) fun _ _ hf =>
      not_broken hfail (hf.mono fun _ _ hs => hs.1)
  obtain ⟨a, st', hx, hst'⟩ := answer_ok (x := (StoreCall.flush : StoreCall N).program)
    (Q := fun a st' => a = .done ∧ FlushWritten st st')
    (hwritten.andThen fun _ _ hc => ensures_pure.mpr ⟨rfl, hc⟩)
  obtain ⟨rfl, hst'⟩ := hst'
  refine ⟨st', hx, ?_, hst'.len, ?_, hst'.dirty⟩
  · rw [Current, liveFields_eq hst'.strategy hst'.len, hst'.image]
    exact headerAt_overlay ..
  · cases N with
    | zero => rw [view_pathless, view_pathless]
    | succ n =>
      obtain ⟨L, hL⟩ := h
      rw [view_of_holds hfail (Nat.succ_pos n) (hst'.flushed hL.holds).holds,
        view_of_holds hfail (Nat.succ_pos n) hL.holds]

theorem sound_new {o : σ} (ho : ByteOrigin.bytes o = []) (d : SlotSize) :
    ∃ st : CoordMapStore 64 N σ, CoordMapStore.new o d.val = .ok st ∧ Sound st ∧ Unwritten st ∧
      st.mount.origin = o := by
  have hnone : NoHeader (ByteOrigin.bytes o) := by
    left
    rw [ho]
    decide
  have hnew : (CoordMapStore.new o d.val : Except (Stop MapError) (CoordMapStore 64 N σ)) =
      .ok ⟨⟨freshFields N d.val, o⟩, 0, false⟩ := new_spec o d.property.1
  refine ⟨_, hnew, ?_, ⟨hnone, d.val, rfl⟩, rfl⟩
  cases N with
  | zero =>
    obtain ⟨st, hnew', hst, -⟩ := pathless_new o d
    rw [hnew] at hnew'
    cases hnew'
    exact ⟨_, hst⟩
  | succ n =>
    obtain ⟨st, hnew', hst, -⟩ := refines_new ho (Nat.succ_pos n) d
    rw [hnew] at hnew'
    cases hnew'
    exact ⟨_, hst⟩

end Chton.SoundStores
