import Chton.SoundStores
import Mathlib.Data.List.Lex

/-!
# Stores without buffered state can be found again

A put that is refused for lack of addresses may have linked new nodes without setting the
dirty flag. The header on the origin then knows an older bump pointer, or there is still
no header; but nodes without records show in no lookup, and `load` finds all entries.
-/

namespace Chton.RecoverableStores
open OutcomePrograms CallRuns ByteRegions LittleEndianWords IntervalTilings Origins
open TreeStrategyProgram CoordMapProgram StoreLayouts StoreLayouts.Layout LayoutImages ImageEdits
open StrategyCalls StoreRepresentations TreeDescents RecordCalls HeaderCalls MapCalls MapUpdates
open LayoutContents StoreReopening Enumerations StoreRuns SoundStores

variable {N : ℕ} {σ : Type} [ByteOrigin σ] {st st' : CoordMapStore 64 N σ} {L L' : Layout}

def Blank (b : Bytes) : Prop := ∀ i, i < headerLen → peek b i = 0

theorem take_congr {b b' : Bytes} {n : ℕ} (hlen : n ≤ b.length) (hlen' : n ≤ b'.length)
    (h : ∀ i, i < n → peek b' i = peek b i) : b'.take n = b.take n := by
  apply List.ext_getElem
  · rw [List.length_take, List.length_take, Nat.min_eq_left hlen, Nat.min_eq_left hlen']
  · intro i hi hi'
    rw [List.length_take, Nat.lt_min] at hi hi'
    have hsame := h i hi.1
    rw [peek, peek, List.getD_eq_getElem _ _ hi.2, List.getD_eq_getElem _ _ hi'.2] at hsame
    rw [List.getElem_take, List.getElem_take, hsame]

theorem noHeader_of_blank {b : Bytes} (h : Blank b) : NoHeader b := by
  by_cases hlen : b.length < 64
  · exact .inl hlen
  · right
    have htake : b.take 64 = (List.replicate 64 0).take 64 := by
      apply take_congr (le_of_eq List.length_replicate.symm) (Nat.le_of_not_lt hlen)
      intro i hi
      rw [h i hi, peek, List.getD_replicate]
      exact hi
    rw [htake]
    decide

/-- What `load` goes by: a header with the right count, or none while there is no entry. -/
inductive Findable (st : CoordMapStore 64 N σ) (L : Layout) : Prop
  | header (s : TreeStrategy N) (head : HeaderAt (image st.mount) s)
    (loadable : Loadable (image st.mount) s) (slot : s.recordSlotSize = L.slot)
    (count : s.recordCount = st.len)
  | blank (bytes : Blank (image st.mount)) (live : L.live N = ∅) (free : L.free = [])

/-- A store whose entries are found again whenever it is not buffered. -/
def Recoverable (st : CoordMapStore 64 N σ) : Prop :=
  ∃ L, Refines st L ∧ (st.dirty = false → Findable st L)

theorem Findable.congr (h : Findable st L) (hs : SameStore st st') : Findable st' L := by
  have hi : image st'.mount = image st.mount := hs.mount.image
  cases h with
  | header s head loadable slot count =>
    exact .header s (hi ▸ head) (hi ▸ loadable) slot (count.trans hs.len.symm)
  | blank bytes live free => exact .blank (hi ▸ bytes) live free

/-- Changes behind the header that add no entry leave it as good as it was. -/
theorem Findable.stays (h : Findable st L)
    (hframe : Framed (image st.mount) (image st'.mount) rootOffset (2 ^ 64))
    (hslot : L'.slot = L.slot) (hlen : st'.len = st.len) (hlive : L'.live N = L.live N)
    (hfree : L'.free = L.free) : Findable st' L' := by
  cases h with
  | header s head loadable slot count =>
    refine .header s ⟨head.room.trans hframe.length_le, ?_⟩ ?_ (slot.trans hslot.symm)
      (count.trans hlen.symm)
    · rw [← head.bytes]
      exact take_congr head.room (head.room.trans hframe.length_le) fun i hi => hframe.same i (.inl hi)
    · refine { loadable with free_lt := ?_ }
      cases loadable.free_lt with
      | inl h0 => exact .inl h0
      | inr hlt => exact .inr (Nat.lt_of_lt_of_le hlt hframe.length_le)
  | blank bytes live free =>
    refine .blank ?_ (hlive.trans live) (hfree.trans free)
    intro i hi
    rw [hframe.same i (.inl hi)]
    exact bytes i hi

/-- Without records the slot size of a layout is of no importance. -/
theorem valid_reslot (h : L.Valid N) (hlive : L.live N = ∅) (hfree : L.free = [])
    (d : SlotSize) : ({ L with slot := d.val } : Layout).Valid N := by
  have hnone : ∀ q, q.length = N → L.ptr q = 0 := by
    intro q hq
    by_contra hp
    have hmem : q ∈ L.live N := ⟨hq, hp⟩
    rw [hlive] at hmem
    exact hmem
  refine { h with
    tiling := ?_
    slot_ge := d.property.1
    slot_lt := d.property.2
    fits := fun q hq hp => absurd (hnone q hq) hp }
  apply h.tiling.rename id
  · exact fun o ho => ho
  · exact fun o ho => ⟨o, ho, rfl⟩
  · exact fun o _ => rfl
  · intro o ho
    cases o with
    | entry q =>
      have hq : q.length ≠ N := fun hlen => ho.2 (hnone q hlen)
      change spanOf N _ q = spanOf N L q
      rw [spanOf, if_neg hq, spanOf, if_neg hq]
    | free a =>
      have hmem : a ∈ L.free := ho
      rw [hfree] at hmem
      exact absurd hmem List.not_mem_nil
    | lost a n => rfl

theorem Findable.load (hfail : NeverFails σ) (hN : 0 < N) (hN' : N ≤ maxStoreDepth)
    (h : Findable st L) (hL : Refines st L) (d : SlotSize) :
    ∃ st' : CoordMapStore 64 N σ, CoordMapStore.load st.mount.origin d.val = .ok st' ∧
      view st' = view st ∧ st'.len = st.len := by
  have hvalid := hL.holds.mount.valid
  have hview := view_of_holds hfail hN hL.holds
  cases h with
  | header s head loadable slot count =>
    obtain ⟨st', hload, hop⟩ := load_header (o := st.mount.origin) hfail hN' d.property.1 head loadable
    have hread : Readable st'.mount L := by
      refine ⟨hvalid, ?_, ?_⟩
      · rw [hop.strategy, slot]
      · rw [hop.image]
        exact hL.holds.mount.stored
    refine ⟨st', hload, ?_, hop.len.trans count⟩
    rw [view_of_readable hfail hN hread, hview]
  | blank bytes live free =>
    obtain ⟨st', hload, hop⟩ := load_noHeader (N := N) (o := st.mount.origin) hfail d.property.1
      (noHeader_of_blank bytes)
    have hread : Readable st'.mount ({ L with slot := d.val } : Layout) := by
      refine ⟨valid_reslot hvalid live free d, ?_, ?_⟩
      · rw [hop.strategy, freshFields]
      · have hstored := hL.holds.mount.stored
        rw [hop.image]
        exact ⟨hstored.slots, hstored.nodes, hstored.root, hstored.chain, hstored.records⟩
    refine ⟨st', hload, ?_, ?_⟩
    · rw [view_of_readable hfail hN hread, hview]
      rfl
    · rw [hop.len, hL.holds.len, live, Set.ncard_empty]
      rfl

theorem Recoverable.load (hfail : NeverFails σ) (hN : 0 < N) (hN' : N ≤ maxStoreDepth)
    (h : Recoverable st) (hdirty : st.dirty = false) (d : SlotSize) :
    ∃ st' : CoordMapStore 64 N σ, CoordMapStore.load st.mount.origin d.val = .ok st' ∧
      view st' = view st ∧ st'.len = st.len := by
  obtain ⟨L, hL, hfind⟩ := h
  exact (hfind hdirty).load hfail hN hN' hL d

theorem recoverable_same (h : Recoverable st) (hs : SameStore st st') : Recoverable st' := by
  obtain ⟨L, hL, hfind⟩ := h
  exact ⟨L, hL.congr hs, fun hdirty => (hfind (hs.dirty ▸ hdirty)).congr hs⟩

/-- The live fields on the origin are as good as any header. -/
theorem findable_current (hN : 0 < N) (hL : Refines st L) (hcur : Current st) : Findable st L :=
  .header (liveFields st) hcur (loadable_live hL.holds hN) hL.holds.mount.fields.slot rfl

section
variable {ε α β : Type}

def Safe (x : EStateM ε (CoordMapStore 64 N σ) α) : Prop :=
  ∀ st, Recoverable st → Ensures x st (fun _ st' => Recoverable st') fun _ st' => Recoverable st'

theorem safe_pure (a : α) : Safe (pure a : EStateM ε (CoordMapStore 64 N σ) α) :=
  fun _ h => ensures_pure.mpr h

theorem safe_throw (e : ε) : Safe (throw e : EStateM ε (CoordMapStore 64 N σ) α) :=
  fun _ h => ensures_throw.mpr h

theorem Safe.bind {x : EStateM ε (CoordMapStore 64 N σ) α}
    {f : α → EStateM ε (CoordMapStore 64 N σ) β} (hx : Safe x) (hf : ∀ a, Safe (f a)) :
    Safe (x >>= f) :=
  fun st h => (hx st h).bind (fun a st' h' => hf a st' h') fun _ _ h' => h'

theorem Safe.answer {x : EStateM ε (CoordMapStore 64 N σ) α} (hx : Safe x) (h : Recoverable st) :
    Recoverable (CallRuns.answer x st).2 := by
  rcases answer_cases (hx st h) with ⟨a, st', hanswer, hst'⟩ | ⟨e, st', hanswer, hst'⟩
  · rw [hanswer]
    exact hst'
  · rw [hanswer]
    exact hst'

end

theorem safe_getPath (hfail : NeverFails σ) (hN : 0 < N) (p : CoordPath N) :
    Safe (getPath p : MapProgram 64 N σ _) := by
  intro st h
  obtain ⟨L, hL, hfind⟩ := h
  apply (getPath_spec hL.holds.mount.readable hN p).mono
  · exact fun v st' hv => recoverable_same ⟨L, hL, hfind⟩ hv.2
  · exact fun e st' hf => (not_faulted hfail hf).elim

theorem safe_entries (hfail : NeverFails σ) (hN : 0 < N) :
    Safe (entries : MapProgram 64 N σ _) := by
  intro st h
  obtain ⟨L, hL, hfind⟩ := h
  apply (entries_spec hN hL.holds.mount hL.synced).mono
  · exact fun es st' hes => recoverable_same ⟨L, hL, hfind⟩ hes.2
  · exact fun e st' hf => (not_faulted hfail hf).elim

theorem safe_putPath (hfail : NeverFails σ) (hN : 0 < N) (p : CoordPath N) {v : Bytes}
    (hv : v.length < 2 ^ 63) : Safe (putPath p v : MapProgram 64 N σ _) := by
  intro st h
  obtain ⟨L, hL, hfind⟩ := h
  have hvalid := hL.holds.mount.valid
  have hlost := (lost_put hvalid p v).trans hL.whole
  apply (putPath_spec hL.holds hN p hv).mono
  · intro prev st' hdone
    obtain ⟨⟨-, hholds, hfollows⟩, hdirty⟩ := hdone
    exact ⟨_, ⟨hholds, hfollows.synced hL.synced, hlost⟩, fun hclean => nomatch hclean.symm.trans hdirty⟩
  · intro e st' hor
    cases hor with
    | inr hb => exact (not_broken hfail hb).elim
    | inl href =>
      have hlive := live_of_kept href.kept
      have hlen : st'.len = ((L.put p v).2.live N).ncard := by rw [hlive, href.len, hL.holds.len]
      refine ⟨_, ⟨⟨href.mount, hlen⟩, href.follows.synced hL.synced, hlost⟩, fun hclean => ?_⟩
      exact (hfind (href.dirty ▸ hclean)).stays href.follows.header href.kept.slot href.len hlive
        (free_of_error hvalid href.error)

theorem safe_removePath (hfail : NeverFails σ) (hN : 0 < N) (p : CoordPath N) :
    Safe (removePath p : MapProgram 64 N σ _) := by
  intro st h
  obtain ⟨L, hL, hfind⟩ := h
  apply (removePath_spec hL.holds hN p).mono
  · intro prev st' hdone
    obtain ⟨⟨-, hholds, hfollows⟩, hor⟩ := hdone
    rcases hor with ⟨-, hsame⟩ | hdirty
    · exact recoverable_same ⟨L, hL, hfind⟩ hsame
    · obtain ⟨-, -, -, hlost⟩ := remove_contents L p
      exact ⟨_, ⟨hholds, hfollows.synced hL.synced, hlost.trans hL.whole⟩,
        fun hclean => nomatch hclean.symm.trans hdirty⟩
  · exact fun e st' hb => (not_broken hfail hb).elim

theorem safe_clearChecked (hfail : NeverFails σ) (hN : 0 < N) :
    Safe (clearChecked : MapProgram 64 N σ _) := by
  intro st h
  obtain ⟨L, hL, -⟩ := h
  have hmount := hL.holds.mount
  apply (clearChecked_spec hN hmount.valid.slot_ge hmount.valid.slot_lt hmount.fields.slot
    hmount.fields.nodeSize).mono
  · intro _ st' hclear
    have hst' : Refines st' (empty L.slot) := ⟨hclear.holds, hclear.synced, rfl⟩
    have hlen : st'.len = 0 := by rw [hclear.holds.len, live_empty hN, Set.ncard_empty]
    have hfields : liveFields st' = freshFields N L.slot := by
      rw [liveFields, hclear.strategy, hlen]
      rfl
    have hcur : Current st' := by
      rw [Current, hfields]
      exact hclear.header
    exact ⟨_, hst', fun _ => findable_current hN hst' hcur⟩
  · exact fun e st' hb => (not_broken hfail hb).elim

/-- After a flush the header is current, and the layout is the same. -/
theorem flush_finds (hfail : NeverFails σ) (hN : 0 < N) (hL : Refines st L) :
    Ensures flush st (fun _ st' => Refines st' L ∧ Findable st' L ∧ st'.dirty = false)
      fun _ _ => False := by
  apply (flush_spec hL.holds).mono
  · intro _ st' hflush
    have hst' : Refines st' L := ⟨hflush.holds, hflush.synced hL.synced, hL.whole⟩
    exact ⟨hst', findable_current hN hst' hflush.header, hflush.dirty⟩
  · exact fun e st' hb => not_broken hfail hb

theorem safe_flush (hfail : NeverFails σ) (hN : 0 < N) : Safe (flush : MapProgram 64 N σ _) := by
  intro st h
  obtain ⟨L, hL, -⟩ := h
  apply (flush_finds hfail hN hL).mono
  · exact fun _ st' hflush => ⟨L, hflush.1, fun _ => hflush.2.1⟩
  · exact fun _ _ hf => hf.elim

theorem safe_reopen (hfail : NeverFails σ) (hN : 0 < N) (hN' : N ≤ maxStoreDepth) (d : SlotSize) :
    Safe (reopen d : MapProgram 64 N σ _) := by
  intro st h
  obtain ⟨L, hL, -⟩ := h
  refine (flush_spec hL.holds).bind ?_ fun e st' hb => (not_broken hfail hb).elim
  intro _ st₁ hflush
  have hst₁ : Refines st₁ L := ⟨hflush.holds, hflush.synced hL.synced, hL.whole⟩
  obtain ⟨st₂, hload, hop, hholds⟩ :=
    load_current (o := st₁.mount.origin) hfail hN hN' d.property.1 hst₁.holds rfl hflush.header
  have hrun : reload d st₁ = .ok ⟨⟩ st₂ := by rw [reload, hload]
  have hi : image st₂.mount = image st₁.mount := hop.image
  have hst₂ : Refines st₂ L := ⟨hholds, hi ▸ hst₁.synced, hL.whole⟩
  have hfields : liveFields st₂ = liveFields st₁ := by
    rw [liveFields, hop.strategy, hop.len]
  refine (ensures_of_ok hrun).mpr ⟨L, hst₂, fun _ => findable_current hN hst₂ ?_⟩
  rw [Current, hfields, hi]
  exact hflush.header

theorem safe_step (hfail : NeverFails σ) (hN : 0 < N) (hN' : N ≤ maxStoreDepth) (x : Step N) :
    Safe (x.program : MapProgram 64 N σ _) := by
  cases x with
  | reopen d => exact (safe_reopen hfail hN hN' d).bind fun _ => safe_pure _
  | call c =>
    cases c with
    | iter => exact (safe_entries hfail hN).bind fun _ => safe_pure _
    | len => exact fun st h => ensures_bind.mpr (ensures_get.mpr (ensures_pure.mpr h))
    | flush => exact (safe_flush hfail hN).bind fun _ => safe_pure _
    | map c =>
      cases c with
      | get p => exact (safe_getPath hfail hN p).bind fun _ => safe_pure _
      | put p v => exact (safe_putPath hfail hN p v.property).bind fun _ => safe_pure _
      | remove p => exact (safe_removePath hfail hN p).bind fun _ => safe_pure _
      | clear => exact (safe_clearChecked hfail hN).bind fun _ => safe_pure _

theorem blank_nil : Blank [] := fun _ _ => rfl

theorem recoverable_new (hN : 0 < N) {o : σ} (ho : ByteOrigin.bytes o = []) (d : SlotSize)
    (hnew : CoordMapStore.new o d.val = .ok st) : Recoverable st := by
  obtain ⟨st₁, hnew₁, hst₁, horigin⟩ := refines_new ho hN d
  cases hnew.symm.trans hnew₁
  have hi : image st.mount = [] := (congrArg ByteOrigin.bytes horigin).trans ho
  exact ⟨_, hst₁, fun _ => .blank (hi ▸ blank_nil) (live_empty hN d.val) rfl⟩

theorem recoverable_load (hfail : NeverFails σ) (hN : 0 < N) {o : σ} (ho : ByteOrigin.bytes o = [])
    (d : SlotSize) (hload : CoordMapStore.load o d.val = .ok st) : Recoverable st := by
  obtain ⟨st₁, -, hst₁, horigin⟩ := refines_new (N := N) ho hN d
  obtain ⟨st₂, hload₂, hop⟩ := load_noHeader (N := N) hfail d.property.1
    (noHeader_of_blank (ho ▸ blank_nil))
  cases hload.symm.trans hload₂
  have hi : ByteOrigin.bytes o = image st₁.mount := (congrArg ByteOrigin.bytes horigin).symm
  have hst := refines_unwritten hN hst₁ rfl hi d hop
  exact ⟨_, hst, fun _ => .blank (hop.image.trans ho ▸ blank_nil) (live_empty hN d.val) rfl⟩

end Chton.RecoverableStores
