import Chton.SoundStores

/-!
# Dropping a store without flushing it

Slots and records reach the origin with each call, the header only with `flush` and
`clear_checked`. A store that is dropped while its header is current is found again
unchanged. With a stale header `load` succeeds too, but the reopened allocator does not
know the records that were linked since, and hands their bytes out again.
-/

namespace Chton.DroppedStores
open OutcomePrograms CallRuns ByteRegions LittleEndianWords Origins TreeStrategyProgram
open CoordMapProgram StoreLayouts StoreLayouts.Layout LayoutImages ImageEdits StrategyCalls
open StoreRepresentations TreeDescents RecordCalls HeaderCalls MapCalls MapUpdates LayoutContents
open StoreReopening StoreRuns FiniteMaps PathlessStores SoundStores

variable {N : ℕ} {σ : Type} [ByteOrigin σ] {st : CoordMapStore 64 N σ} {c : StoreCall N}

/-- After any further calls, `len` counts the paths with a value and a call on one path leaves
the others alone. -/
structure Trustworthy (st : CoordMapStore 64 N σ) : Prop where
  len : ∀ cs, (run StoreCall.perform cs st).2.len = (valued (run StoreCall.perform cs st).2).ncard
  apart : ∀ cs c p q, MapCall.path c = some p → q ≠ p →
    view (c.perform (run StoreCall.perform cs st).2).2 q = view (run StoreCall.perform cs st).2 q

theorem trustworthy_of_sound (hfail : NeverFails σ) (h : Sound st) : Trustworthy st where
  len cs := (h.run hfail cs).len_eq hfail
  apart cs _ _ _ hp hq := (h.run hfail cs).apart hfail hp hq

/-- The header on the origin, or its absence, tells what the store knows. -/
def Settled (st : CoordMapStore 64 N σ) : Prop := Current st ∨ Unwritten st

theorem settled_of_same {st' : CoordMapStore 64 N σ} (h : Settled st) (hs : SameStore st st') :
    Settled st' := by
  have hfields : liveFields st' = liveFields st := by
    rw [liveFields, liveFields, hs.mount.strategy, hs.len]
  cases h with
  | inl hcur =>
    left
    rw [Current, hfields, hs.mount.image]
    exact hcur
  | inr hnone =>
    right
    rw [Unwritten, hfields, hs.mount.image]
    exact hnone

/-- A call that is not refused for lack of addresses leaves the store buffered or settled. -/
theorem settled_perform (hfail : NeverFails σ) (h : Sound st)
    (hst : st.dirty = false → Settled st) (hc : overflows (c.perform st).1 = false) :
    (c.perform st).2.dirty = false → Settled (c.perform st).2 := by
  intro hdirty
  by_cases hclear : c = .map .clear
  · subst hclear
    obtain ⟨st', hx, hcur, -, -⟩ := h.clear hfail
    rw [hx]
    exact .inl hcur
  by_cases hflush : c = .flush
  · subst hflush
    obtain ⟨st', hx, hcur, -, -, -⟩ := h.flush hfail
    rw [hx]
    exact .inl hcur
  rcases h.quiet hfail hclear hflush with hd | hsame | ⟨hover, -⟩
  · rw [hdirty] at hd
    cases hd
  · exact settled_of_same (hst (hsame.dirty ▸ hdirty)) hsame
  · rw [hc] at hover
    cases hover

theorem settled_run (hfail : NeverFails σ) (h : Sound st) (hst : st.dirty = false → Settled st)
    (cs : List (StoreCall N)) (hcs : ∀ r ∈ (run StoreCall.perform cs st).1, overflows r = false) :
    (run StoreCall.perform cs st).2.dirty = false → Settled (run StoreCall.perform cs st).2 := by
  induction cs generalizing st with
  | nil => exact hst
  | cons c cs ih =>
    rw [run_cons] at hcs
    apply ih (h.perform hfail c)
    · exact settled_perform hfail h hst (hcs _ List.mem_cons_self)
    · exact fun r hr => hcs r (List.mem_cons_of_mem _ hr)

/-- The store reached from `st` by the calls `cs`, dropped and opened again. -/
structure DropRun (st : CoordMapStore 64 N σ) (cs : List (StoreCall N)) : Prop where
  /-- Dropped while it is settled, the store is found again and can be relied on. -/
  reopened : Settled (run StoreCall.perform cs st).2 → ∀ d : SlotSize,
    ∃ st', CoordMapStore.load (run StoreCall.perform cs st).2.mount.origin d.val = .ok st' ∧
      Trustworthy st' ∧ st'.len = (run StoreCall.perform cs st).2.len ∧
        view st' = view (run StoreCall.perform cs st).2
  /-- It is settled when it is not buffered and no allocation of the run was refused. -/
  settled : (run StoreCall.perform cs st).2.isBuffered = false →
    (∀ r ∈ (run StoreCall.perform cs st).1, overflows r = false) →
      Settled (run StoreCall.perform cs st).2

/-- A store that is dropped with its header current is found again unchanged. -/
theorem settled_drop_is_safe (hfail : NeverFails σ) (hN : N ≤ maxStoreDepth) {o : σ}
    (ho : ByteOrigin.bytes o = []) (d : SlotSize) :
    ∃ st : CoordMapStore 64 N σ, CoordMapStore.new o d.val = .ok st ∧
      ∀ cs : List (StoreCall N), DropRun st cs := by
  obtain ⟨st, hnew, hst, hnone, -⟩ := sound_new ho d
  refine ⟨st, hnew, fun cs => ⟨fun hset d' => ?_, fun hbuf hcs => ?_⟩⟩
  · have hfinal := hst.run hfail cs
    have hreopen : ∃ st' : CoordMapStore 64 N σ,
        Reopened (run StoreCall.perform cs st).2.mount.origin d' (run StoreCall.perform cs st).2 st' := by
      cases hset with
      | inl hcur => exact hfinal.reopen hfail hfail hN hcur rfl d'
      | inr hnone => exact hfinal.reopen_unwritten hfail hfail hnone rfl d'
    obtain ⟨st', hst'⟩ := hreopen
    exact ⟨st', hst'.load, trustworthy_of_sound hfail hst'.sound, hst'.len, hst'.view⟩
  · exact settled_run hfail hst (fun _ => .inr hnone) cs hcs hbuf

theorem settled_drop_is_safe_ideal :
    ∃ st : CoordMapStore 64 2 IdealOrigin, CoordMapStore.new ⟨[]⟩ 16 = .ok st ∧
      ∀ cs : List (StoreCall 2), DropRun st cs :=
  settled_drop_is_safe IdealOrigin.neverFails (by decide) rfl ⟨16, by decide⟩

def leafPath (c : Coord) : CoordPath 1 := ⟨[c], rfl⟩

theorem locateOrCreate_leaf (c : Coord) :
    (locateOrCreate (leafPath c) : BindingProgram 1 σ Slot) = locate (leafPath c) := by
  simp [locateOrCreate, locate, leafPath, locateOrCreateFrom, locateFrom]

/-- A put by an allocator that was reset over a tree takes the first record behind the root. -/
theorem stale_put {st : CoordMapStore 64 1 σ} {L : Layout} {slot : ℕ} {c : Coord} {v : Bytes}
    (hread : Readable st.mount L) (hs : st.mount.strategy = freshFields 1 slot)
    (hlen : st.len = 0) (hc : L.ptr [c] = 0) (hv : v.length + 8 ≤ slot)
    (hslot : rootEnd + slot < 2 ^ 64) :
    Ensures (putPath (leafPath c) v) st
      (fun _ st' => st'.mount.strategy.recordSlotSize = slot ∧
        image st'.mount = placed (image st.mount) rootOffset c rootEnd v) Broken := by
  have hlength : lengthBytes = 8 := rfl
  have hroot : rootEnd = rootOffset + nodeSpan := rfl
  have hsize : st.mount.strategy.recordSlotSize = slot := by rw [hs, freshFields]
  apply (maxValueLen_spec hsize (by omega) (by omega)).andThen
  intro maxLen st hmax
  obtain ⟨rfl, rfl⟩ := hmax
  rw [if_neg (by omega), locateOrCreate_leaf]
  refine (locateEntry_spec hread Nat.one_pos (leafPath c)).bind ?_ fun _ _ h => broken_of_faulted h
  intro s st₁ hst₁
  obtain ⟨rfl, hst₁⟩ := hst₁
  have hresolve : L.resolve [] (leafPath c).coords = ⟨rootOffset, c, slotAddr rootOffset c, 0⟩ := by
    rw [leafPath, Layout.resolve, if_pos rfl, hread.valid.root]
    rw [List.nil_append, hc]
  rw [hresolve, if_neg (by simp)]
  have hs₁ : st₁.mount.strategy = freshFields 1 slot := hst₁.mount.strategy.trans hs
  have halloc : Ensures allocRecord st₁.mount
      (fun r m' => r = rootEnd ∧ m'.strategy.recordSlotSize = slot ∧ image m' = image st₁.mount)
      fun _ _ => False := by
    rw [allocRecord, ensures_bind, ensures_get, hs₁, if_neg (by simp [freshFields])]
    refine (checkedBump_ok st₁.mount ?_).mono ?_ fun _ _ h => h
    · rw [hs₁]
      exact hslot
    · intro r m' hm'
      obtain ⟨rfl, rfl⟩ := hm'
      rw [hs₁]
      exact ⟨rfl, rfl, rfl⟩
  refine (onStrategy_spec halloc).bind ?_ fun _ _ h => h.2.elim fun _ h => h.2.elim
  intro r st₂ hst₂
  obtain ⟨hst₂, rfl, hsize₂, hi₂⟩ := hst₂
  have hspan : rootOffset + nodeSpan < 2 ^ 64 := by
    have := Nat.two_pow_pos 64
    omega
  refine (onStrategy_spec (writeSlot_spec st₂.mount hspan)).bind ?_ ?_
  · intro _ st₃ hst₃
    obtain ⟨hst₃, hs₃, hi₃⟩ := hst₃
    have hlen₃ : st₃.len = 0 := by rw [hst₃, hst₂, hst₁.len, hlen]
    apply (bumpLen_spec (by rw [hlen₃]; decide)).andThen
    intro _ st₄ hst₄
    rw [writeRecord_eq, bind_assoc]
    refine (writeLength_spec st₄ v (by omega)).bind ?_ fun _ _ hf => broken_of_faulted hf
    intro _ st₅ hst₅
    refine (writePayload_spec st₅ v (by omega)).bind ?_ fun _ _ hf => broken_of_faulted hf
    intro _ st₆ hst₆
    rw [ensures_bind, ensures_modify, ensures_pure]
    have hm₄ : st₄.mount = st₃.mount := by rw [hst₄]
    refine ⟨?_, ?_⟩
    · change st₆.mount.strategy.recordSlotSize = slot
      rw [hst₆.strategy, hst₅.strategy, hm₄, hs₃, hsize₂]
    · change image st₆.mount = _
      rw [hst₆.image, hst₅.image, hm₄, hi₃, hi₂, hst₁.mount.image]
      rfl
  · intro _ st₃ hf
    obtain ⟨-, e, rfl, hf⟩ := hf
    exact refused_map.mpr (hf.imp fun _ hs => hs.1)

/-- Another path that led to the same record now reads the new value. -/
theorem stale_get {st : CoordMapStore 64 1 σ} {b v : Bytes} {slot : ℕ} {c c' : Coord}
    (hsize : st.mount.strategy.recordSlotSize = slot)
    (hi : image st.mount = placed b rootOffset c rootEnd v)
    (hword : wordAt b (slotAddr rootOffset c') = rootEnd) (hne : c' ≠ c)
    (hv : v.length + 8 ≤ slot) (hsized : v.length < 2 ^ 63) (hslot : rootEnd + slot < 2 ^ 64) :
    Ensures (getPath (leafPath c')) st (fun r _ => r = some v) Broken := by
  have hroot : rootEnd = rootOffset + nodeSpan := rfl
  have hle := slotAddr_le rootOffset c'
  have hspan : rootOffset + nodeSpan < 2 ^ 64 := by omega
  have hread : wordAt (image st.mount) (slotAddr rootOffset c') = rootEnd := by
    have houter : wordAt (placed b rootOffset c rootEnd v) (slotAddr rootOffset c') =
        wordAt (setSlot b rootOffset c rootEnd) (slotAddr rootOffset c') :=
      wordAt_congr fun i _ h₂ => peek_setRecord_outside (.inl (by omega))
    rw [hi, houter, wordAt_setSlot (by omega), if_neg hne, hword]
  have hroom : slotAddr rootOffset c' + 8 ≤ (image st.mount).length := by
    rw [hi, placed, length_setRecord]
    omega
  have hlocate : Ensures (locate (leafPath c')) st.mount
      (fun s m' => s.recordOffset = rootEnd ∧ Same st.mount m') (Faulted st.mount) := by
    rw [locate, leafPath, locateFrom]
    apply (slotPos_spec st.mount hspan).andThen
    intro _ m hm
    obtain ⟨rfl, rfl⟩ := hm
    apply (readSlot_spec st.mount (.inl hroom)).andThen
    intro value m hm
    rw [if_pos rfl, ensures_pure]
    exact ⟨hm.1.trans hread, hm.2⟩
  rw [getPath]
  refine (onStrategy_read hlocate).bind ?_ fun _ _ hf => broken_of_faulted hf
  intro s st₁ hst₁
  obtain ⟨hoff, hst₁⟩ := hst₁
  have hne0 : ¬s.recordOffset = 0 := by
    rw [hoff, rootEnd_eq]
    decide
  have hrec : RecordAt (image st₁.mount) rootEnd v := by
    rw [hst₁.mount.image, hi]
    exact recordAt_setRecord (by omega)
  rw [if_neg hne0, hoff]
  refine (readRecord_spec (hst₁.mount.strategy ▸ hsize) (by omega) hrec hv hsized (by omega)).bind ?_
    fun _ _ hf => broken_of_faulted hf
  intro a st₂ ha
  rw [ensures_pure, ha.1]

/-- A put on an empty depth-one store links the first record behind the root. -/
theorem first_put {p : CoordPath 1} {v : Bytes} (hv : ¬v.length > 16 - lengthBytes) :
    ∃ G, (empty 16).put p v = (.ok none, G) ∧ G.ptr p.coords = rootEnd ∧ G.val p.coords = v ∧
      G.slot = 16 ∧ ∀ q, q ≠ p.coords → G.ptr q = (empty 16).ptr q := by
  have hN : 0 < 1 := Nat.one_pos
  obtain ⟨q, c, hq, hlen⟩ := coords_split hN p
  obtain rfl : q = [] := List.length_eq_zero_iff.mp (by omega)
  have hdesc : (empty 16).descend [] p.coords = (empty 16, true) := by rw [hq]; rfl
  have hptr : (empty 16).ptr p.coords = 0 := if_neg (coords_ne_nil hN p)
  have htake : (empty 16).takeRecord = some (rootEnd, { empty 16 with bump := rootEnd + 16 }) := by
    rw [takeRecord_nil rfl, if_pos (by rw [show (empty 16).bump = 90837 from rfl]; decide)]
    rfl
  refine ⟨_, (put_settle hv hdesc).trans (settle_insert hptr htake), ?_, ?_, rfl, ?_⟩
  · rw [place_ptr, Function.update_self]
  · rw [place_val, Function.update_self]
  · intro q hq
    rw [place_ptr, Function.update_of_ne hq]

theorem noHeader_of_framed {b : Bytes} {hi : ℕ} (h : Framed [] b rootOffset hi) : NoHeader b := by
  by_cases hlen : b.length < 64
  · exact .inl hlen
  · right
    have hzero : window b 0 4 = List.replicate 4 0 := by
      apply window_zero
      intro i _ hi
      have hroot : rootOffset = 64 := rfl
      rw [h.same i (.inl (by omega)), peek_of_le (Nat.zero_le _)]
    have hfield : headerField (b.take 64) 0 4 = decode (window b 0 4) := by
      rw [headerField, window_eq_drop_take (by omega), List.drop_zero, List.drop_zero, List.take_take]
      rfl
    rw [hfield, hzero]
    decide

/-- A store that is opened over a put that was never flushed. -/
theorem unflushed_put {v : Value} {p : CoordPath 1} (hv : ¬v.val.length > 16 - lengthBytes)
    {st : CoordMapStore 64 1 IdealOrigin} (hst : Refines st (empty 16))
    (hbytes : image st.mount = []) :
    ∃ G, ∃ st' : CoordMapStore 64 1 IdealOrigin, (empty 16).put p v.val = (.ok none, G) ∧
      CoordMapStore.load ((MapCall.put p v).perform st).2.mount.origin 16 = .ok st' ∧
      Readable st'.mount G ∧ st'.mount.strategy = freshFields 1 16 ∧ st'.len = 0 := by
  have hfail := IdealOrigin.neverFails
  obtain ⟨G, hput, -⟩ := first_put (p := p) hv
  have hspec : Ensures (MapCall.put p v).program st
      (fun _ st₁ => Holds st₁ G ∧ Follows st.mount (empty 16) st₁.mount G) fun _ _ => False := by
    refine (putPath_spec hst.holds Nat.one_pos p v.property).bind ?_ ?_
    · intro a st₁ hdone
      rw [ensures_pure]
      obtain ⟨⟨-, hholds, hfollows⟩, -⟩ := hdone
      rw [hput] at hholds hfollows
      exact ⟨hholds, hfollows⟩
    · intro e st₁ hor
      cases hor with
      | inl href =>
        have herror := href.error
        rw [hput] at herror
        cases herror
      | inr hb => exact not_broken hfail hb
  obtain ⟨a, st₁, hx, hholds, hfollows⟩ := answer_ok hspec
  have hnone : NoHeader (ByteOrigin.bytes st₁.mount.origin) := by
    apply noHeader_of_framed
    have hframe := hfollows.header
    rw [hbytes] at hframe
    exact hframe
  obtain ⟨st', hload, hop⟩ := @load_noHeader 1 IdealOrigin _ _ 16 hfail (by decide) hnone
  refine ⟨G, st', hput, ?_, ⟨hholds.mount.valid, ?_, ?_⟩, hop.strategy, hop.len⟩
  · rw [MapCall.perform, hx]
    exact hload
  · obtain ⟨G', hput', -, -, hslot, -⟩ := first_put (p := p) hv
    rw [hput] at hput'
    cases hput'
    rw [hop.strategy, hslot]
    rfl
  · rw [hop.image]
    exact hholds.mount.stored

def unflushed : List (StoreCall 1) := [.map (.put (leafPath 0) (.byte 7))]

def overwriting : MapCall 1 := .put (leafPath 1) (.byte 9)

/-- Dropped without a flush, the entry is still found but not counted, and a put on another
path overwrites it. -/
theorem unflushed_drop_aliases :
    ∃ st : CoordMapStore 64 1 IdealOrigin, CoordMapStore.new ⟨[]⟩ 16 = .ok st ∧
      ∃ st' : CoordMapStore 64 1 IdealOrigin,
        CoordMapStore.load (run StoreCall.perform unflushed st).2.mount.origin 16 = .ok st' ∧
        st'.len ≠ (valued st').ncard ∧
        view (overwriting.perform st').2 (leafPath 0) ≠ view st' (leafPath 0) := by
  have hN : 0 < 1 := Nat.one_pos
  have hfail := IdealOrigin.neverFails
  obtain ⟨st, hnew, hst, horigin⟩ := @refines_new 1 IdealOrigin _ ⟨[]⟩ rfl hN ⟨16, by decide⟩
  have hbytes : image st.mount = [] := by rw [image, horigin]; rfl
  obtain ⟨G, st', hput, hload, hread, hfields, hlen⟩ :=
    @unflushed_put ⟨[7], by decide⟩ (leafPath 0) (by decide) st hst hbytes
  obtain ⟨G', hput', hptr, hval, hslot, hother⟩ := @first_put (leafPath 0) [7] (by decide)
  rw [hput] at hput'
  cases hput'
  refine ⟨st, hnew, st', hload, ?_, ?_⟩
  · have hvalued : valued st' = {leafPath 0} := by
      rw [view_value (view_of_readable hfail hN hread)]
      ext p
      rw [Set.mem_ofPred_eq, Set.mem_singleton_iff, ne_eq, contents_eq_none]
      constructor
      · intro hp
        by_contra hne
        apply hp
        rw [hother p.coords fun hc => hne (CoordPath.ext hc)]
        exact if_neg (coords_ne_nil hN p)
      · rintro rfl
        rw [hptr, rootEnd_eq]
        decide
    rw [hlen, hvalued, Set.ncard_singleton]
    decide
  · have hone : G.ptr [(1 : Coord)] = 0 := hother [1] (by decide)
    have hword : wordAt (image st'.mount) (slotAddr rootOffset 0) = rootEnd := by
      have hslots := hread.stored.slots [] 0 hN (root_ne_zero hread.valid.toWired)
      rw [hread.valid.root] at hslots
      exact hslots.trans hptr
    have hroom : rootEnd + 16 < 2 ^ 64 := by rw [rootEnd_eq]; decide
    obtain ⟨a, st'', hx, hsize, hi⟩ | ⟨e, st'', -, hb⟩ := answer_cases (x := overwriting.program)
        (E := Broken) (Q := fun _ s => s.mount.strategy.recordSlotSize = 16 ∧
          image s.mount = placed (image st'.mount) rootOffset 1 rootEnd [9])
        ((stale_put hread hfields hlen hone (by decide) hroom).bind
          (fun _ _ hs => ensures_pure.mpr hs) fun _ _ hb => hb)
    · have hread'' : Ensures (getPath (leafPath 0)) st'' (fun r _ => r = some [9]) Broken := by
        refine stale_get hsize hi hword ?_ ?_ ?_ hroom <;> decide
      have hget : Ensures (MapCall.get (leafPath 0)).program st''
          (fun a _ => a = .value (some [9])) fun _ _ => False := by
        refine hread''.bind ?_ fun _ _ hb => not_broken hfail hb
        intro r _ hr
        rw [ensures_pure, hr]
      obtain ⟨a, s, hxs, rfl⟩ := answer_ok hget
      have hold : view st' (leafPath 0) = .ok (.value (some [7])) := by
        have hlinked : G.ptr (leafPath 0).coords ≠ 0 := by
          rw [hptr, rootEnd_eq]
          decide
        rw [view_of_readable hfail hN hread]
        simp only [contents_linked hlinked, hval]
      rw [MapCall.perform, hx, hold, view, MapCall.perform, hxs]
      intro h
      cases h
    · exact (not_broken hfail hb).elim

end Chton.DroppedStores
