import Chton.MapUpdates

/-!
# Flushing a store and opening it again

`flush` writes the live fields as the header; `load` over an origin that holds the header
of the live fields, or none while the store is still empty, finds the same layout.
-/

namespace Chton.StoreReopening
open OutcomePrograms ByteRegions Origins TreeStrategyProgram CoordMapProgram
open StoreLayouts StoreLayouts.Layout LayoutImages ImageEdits StrategyCalls StoreRepresentations
open RecordCalls HeaderCalls MapCalls MapUpdates

variable {N : ℕ} {σ τ : Type} [ByteOrigin σ] [ByteOrigin τ]
variable {st st' : CoordMapStore 64 N σ} {L : Layout}

/-- The fields that `flush` writes: those of the strategy and the length. -/
def liveFields (st : CoordMapStore 64 N σ) : TreeStrategy N :=
  { st.mount.strategy with recordCount := st.len }

/-- The bytes before the root belong to no span of a layout. -/
theorem image_header {m : Mount N σ} {b' : Bytes} (h : Represents m L)
    (hf : Framed (image m) b' 0 rootOffset) (hroot : RootEdge b'.length) :
    Image N b' L ∧ (Synced N (image m) L → Synced N b' L) := by
  have hspan : ∀ p, L.ptr p ≠ 0 → L.ptr p + L.spanOf N p ≤ 0 ∨ rootOffset ≤ L.ptr p := by
    intro p hp
    by_cases h0 : p = []
    · subst h0
      exact .inr h.valid.root.ge
    · have := h.valid.entry_lower h0 hp
      exact .inr (le_trans (Nat.le_add_right ..) this)
  have hfree : ∀ a ∈ L.free, a + 8 ≤ 0 ∨ rootOffset ≤ a := fun a ha =>
    .inr (le_trans (Nat.le_add_right ..) (h.valid.free_lower ha))
  exact ⟨image_outside h.valid h.stored hf hroot hspan hfree,
    fun hsync => synced_outside hsync hf hspan⟩

structure FlushWritten (st st' : CoordMapStore 64 N σ) : Prop where
  strategy : st'.mount.strategy = liveFields st
  image : image st'.mount = overlay (image st.mount) 0 (headerBytes (liveFields st))
  len : st'.len = st.len
  dirty : st'.dirty = false

/-- A failed `flush` has noted the length and perhaps written the header. -/
structure HalfFlushed (st st' : CoordMapStore 64 N σ) : Prop where
  strategy : st'.mount.strategy = liveFields st
  image : image st'.mount = image st.mount ∨
    image st'.mount = overlay (image st.mount) 0 (headerBytes (liveFields st))
  len : st'.len = st.len

theorem flush_written (st : CoordMapStore 64 N σ) :
    Ensures flush st (fun _ st' => FlushWritten st st')
      (Refused fun _ st' => ByteOrigin.mayFail σ ∧ HalfFlushed st st') := by
  have hset : Ensures (setRecordCount st.len : BindingProgram N σ Unit) st.mount
      (fun _ m' => m' = ⟨liveFields st, st.mount.origin⟩) (fun _ _ => False) :=
    ensures_modify.mpr rfl
  rw [flush, ensures_bind, ensures_get]
  refine (onStrategy_spec hset).bind ?_ fun _ _ ⟨_, _, _, hf⟩ => hf.elim
  rintro _ st₁ ⟨hst₁, hm₁⟩
  have hi₁ : image st₁.mount = image st.mount := by
    rw [hm₁]
    rfl
  have hs₁ : st₁.mount.strategy = liveFields st := by rw [hm₁]
  have hl₁ : st₁.len = st.len := by rw [hst₁]
  rw [flushStrategy]
  refine (onStrategy_spec (writeHeader_spec st₁.mount)).bind ?_ ?_
  · rintro _ st₂ ⟨hst₂, hs₂, hi₂⟩
    have hl₂ : st₂.len = st.len := by rw [hst₂, hl₁]
    rw [hs₁, hi₁] at hi₂
    refine (onMapOrigin_spec (ByteOrigin.flush_spec st₂.mount.origin)).bind ?_ ?_
    · rintro _ st₃ ⟨hst₃, hb₃⟩
      rw [ensures_modify]
      have hi₃ : image st₃.mount = image st₂.mount := hb₃
      refine ⟨?_, hi₃.trans hi₂, ?_, rfl⟩
      · change st₃.mount.strategy = liveFields st
        rw [hst₃]
        exact hs₂.trans hs₁
      · change st₃.len = st.len
        rw [hst₃, hl₂]
    · intro e st₃ hf
      refine hf.mono fun _ st₃ hs => ⟨hs.1, ?_, .inr ?_, ?_⟩
      · rw [hs.2.1]
        exact hs₂.trans hs₁
      · exact Eq.trans hs.2.2 hi₂
      · rw [hs.2.1, hl₂]
  · rintro _ st₂ ⟨hst₂, e, rfl, hf⟩
    refine refused_map.mpr (hf.imp fun _ hs => ⟨hs.1, hs.2.strategy.trans hs₁,
      .inl (hs.2.image.trans hi₁), ?_⟩)
    rw [hst₂, hl₁]

/-- Writing a header over the header area keeps the layout. -/
theorem represents_header {m m' : Mount N σ} {s : TreeStrategy N} (h : Represents m L)
    (hs : Tracks m'.strategy L) (hi : image m' = overlay (image m) 0 (headerBytes s)) :
    Represents m' L ∧ (Synced N (image m) L → Synced N (image m') L) := by
  have hframe : Framed (image m) (image m') 0 rootOffset := by
    rw [hi]
    exact framed_overlay le_rfl (by rw [length_headerBytes])
  have hedge : RootEdge (image m').length := by
    rw [hi, length_overlay, length_headerBytes]
    exact h.stored.root.max (rootEdge_of_le_root le_rfl)
  obtain ⟨himage, hsync⟩ := image_header h hframe hedge
  exact ⟨⟨h.valid, hs, himage⟩, hsync⟩

omit [ByteOrigin σ] in
theorem tracks_liveFields (h : Tracks st.mount.strategy L) : Tracks (liveFields st) L :=
  ⟨h.bump, h.slot, h.freeHead, h.nodeSize⟩

structure Flushed (L : Layout) (st st' : CoordMapStore 64 N σ) : Prop where
  holds : Holds st' L
  synced : Synced N (image st.mount) L → Synced N (image st'.mount) L
  strategy : st'.mount.strategy = liveFields st
  header : HeaderAt (image st'.mount) (liveFields st')
  len : st'.len = st.len
  dirty : st'.dirty = false

omit [ByteOrigin σ] in
theorem liveFields_eq (hs : st'.mount.strategy = liveFields st) (hl : st'.len = st.len) :
    liveFields st' = liveFields st := by
  simp only [liveFields, hs, hl]

theorem FlushWritten.flushed (h : Holds st L) (hw : FlushWritten st st') : Flushed L st st' := by
  have hfields : Tracks st'.mount.strategy L := hw.strategy ▸ tracks_liveFields h.mount.fields
  obtain ⟨hrep, hsync⟩ := represents_header h.mount hfields hw.image
  refine ⟨⟨hrep, hw.len.trans h.len⟩, hsync, hw.strategy, ?_, hw.len, hw.dirty⟩
  rw [liveFields_eq hw.strategy hw.len, hw.image]
  exact headerAt_overlay ..

theorem HalfFlushed.holds (h : Holds st L) (hw : HalfFlushed st st') : Holds st' L := by
  have hfields : Tracks st'.mount.strategy L := hw.strategy ▸ tracks_liveFields h.mount.fields
  refine ⟨?_, hw.len.trans h.len⟩
  rcases hw.image with hi | hi
  · exact ⟨h.mount.valid, hfields, hi.symm ▸ h.mount.stored⟩
  · exact (represents_header h.mount hfields hi).1

theorem flush_spec (h : Holds st L) :
    Ensures flush st (fun _ st' => Flushed L st st') Broken :=
  (flush_written st).mono (fun _ _ hw => hw.flushed h) fun _ _ hf => hf.mono fun _ _ hs => hs.1

/-- The live fields pass the checks of `load`. -/
theorem loadable_live (h : Holds st L) (hN : 0 < N) : Loadable (image st.mount) (liveFields st) := by
  have hbump := h.mount.valid.bump_lt
  have hnode : nodeSpan = 90773 := rfl
  have hlen := len_lt h hN
  have hhead : L.free.headD 0 = 0 ∨
      L.free.headD 0 < 2 ^ 64 ∧ L.free.headD 0 < (image st.mount).length := by
    by_cases hfree : L.free = []
    · exact .inl (by rw [hfree, List.headD_nil])
    · obtain ⟨a, fs, hfree⟩ := List.exists_cons_of_ne_nil hfree
      have hup := h.mount.valid.free_upper (a := a) (by simp [hfree])
      have hslot := h.mount.valid.slot_ge
      have hchain := h.mount.stored.chain
      rw [hfree] at hchain
      have := hchain.1
      rw [hfree, List.headD_cons]
      exact .inr ⟨by omega, by omega⟩
  refine ⟨⟨?_, ?_, ?_, ?_, ?_⟩, h.mount.fields.nodeSize, ?_, ?_, ?_⟩
  · exact h.mount.fields.bump ▸ hbump
  · change st.mount.strategy.freeHead < 2 ^ 64
    rw [h.mount.fields.freeHead]
    omega
  · change st.mount.strategy.nodeSize < 2 ^ 64
    rw [h.mount.fields.nodeSize]
    omega
  · exact h.mount.fields.slot ▸ h.mount.valid.slot_lt
  · change st.len < 2 ^ 64
    omega
  · exact h.mount.fields.slot ▸ h.mount.valid.slot_ge
  · exact h.mount.fields.bump ▸ h.mount.valid.bump_ge
  · change st.mount.strategy.freeHead = 0 ∨ st.mount.strategy.freeHead < _
    rw [h.mount.fields.freeHead]
    exact hhead.imp_right And.right

/-- A store that `load` returned: the given fields over the same bytes. -/
structure Opened (o : τ) (s : TreeStrategy N) (st' : CoordMapStore 64 N τ) : Prop where
  strategy : st'.mount.strategy = s
  image : image st'.mount = ByteOrigin.bytes o
  len : st'.len = s.recordCount
  dirty : st'.dirty = false

theorem new_fields {ε : Type} {d : ℕ} (hd : 8 ≤ d) :
    (TreeStrategy.new d : Except (Stop ε) (TreeStrategy N)) = .ok (freshFields N d) := by
  rw [TreeStrategy.new, if_neg (Nat.not_lt.mpr hd)]
  rfl

theorem load_cases {w d : ℕ} {ρ : Type} [Origin ρ] {o : ρ} {P : Mount N ρ → Prop}
    {E : Stop BindingError → Mount N ρ → Prop} (hd : 8 ≤ d)
    (h : Ensures load (⟨freshFields N d, o⟩ : Mount N ρ) (fun _ m => P m) E) :
    (∃ st : CoordMapStore w N ρ, CoordMapStore.load o d = .ok st ∧ P st.mount ∧
      st.len = asUsize w st.mount.strategy.recordCount ∧ st.dirty = false) ∨
    ∃ e m, (CoordMapStore.load o d : Except (Stop MapError) (CoordMapStore w N ρ)) =
      .error (e.map .binding) ∧ E e m := by
  cases hx : load (⟨freshFields N d, o⟩ : Mount N ρ) with
  | ok a m =>
    have hopen : loadOrNew (N := N) o d = .ok m := by
      simp only [loadOrNew, new_fields hd, bind, Except.bind, hx]
    refine .inl ⟨⟨m, asUsize w m.strategy.recordCount, false⟩, ?_, h.ok hx, rfl, rfl⟩
    rw [CoordMapStore.load, hopen]
  | error e m =>
    have hopen : (loadOrNew o d : Except _ (Mount N ρ)) = .error e := by
      simp only [loadOrNew, new_fields hd, bind, Except.bind, hx]
    refine .inr ⟨e, m, ?_, h.error hx⟩
    rw [CoordMapStore.load, hopen]

/-- `load` returns a store with the fields it found, or it fails with the origin. -/
theorem opened_or_failed {o : τ} {d : ℕ} {s : TreeStrategy N} (hd : 8 ≤ d)
    (hs : s.recordCount < 2 ^ 64)
    (hload : Ensures load (⟨freshFields N d, o⟩ : Mount N τ)
      (fun _ m' => m'.strategy = s ∧ StrategyCalls.image m' = ByteOrigin.bytes o)
      (Faulted ⟨freshFields N d, o⟩)) :
    (∃ st' : CoordMapStore 64 N τ, CoordMapStore.load o d = .ok st' ∧ Opened o s st') ∨
    ∃ e, (CoordMapStore.load o d : Except (Stop MapError) (CoordMapStore 64 N τ)) = .error e ∧
      ByteOrigin.mayFail τ := by
  obtain ⟨st', hst', ⟨hstrat, hi⟩, hlen, hdirty⟩ | ⟨e, m, he, hf⟩ := load_cases (w := 64) hd hload
  · refine .inl ⟨st', hst', hstrat, hi, ?_, hdirty⟩
    rw [hlen, hstrat, asUsize, Nat.mod_eq_of_lt hs]
  · exact .inr ⟨_, he, hf.state.1⟩

/-- On an origin that never fails, `load` of the map returns what `load` of the strategy does. -/
theorem opened_of_load {o : τ} {d : ℕ} {s : TreeStrategy N} (hfail : NeverFails τ) (hd : 8 ≤ d)
    (hs : s.recordCount < 2 ^ 64)
    (hload : Ensures load (⟨freshFields N d, o⟩ : Mount N τ)
      (fun _ m' => m'.strategy = s ∧ StrategyCalls.image m' = ByteOrigin.bytes o)
      (Faulted ⟨freshFields N d, o⟩)) :
    ∃ st' : CoordMapStore 64 N τ, CoordMapStore.load o d = .ok st' ∧ Opened o s st' :=
  (opened_or_failed hd hs hload).resolve_right fun ⟨_, _, hmay⟩ => hfail hmay

theorem load_noHeader {o : τ} {d : ℕ} (hfail : NeverFails τ) (hd : 8 ≤ d)
    (ho : NoHeader (ByteOrigin.bytes o)) :
    ∃ st' : CoordMapStore 64 N τ, CoordMapStore.load o d = .ok st' ∧
      Opened o (freshFields N d) st' :=
  opened_of_load hfail hd (Nat.two_pow_pos 64)
    ((load_absent (m := ⟨freshFields N d, o⟩) ho).mono (fun _ _ h => ⟨h.strategy, h.image⟩)
      fun _ _ h => h)

theorem load_header {o : τ} {d : ℕ} {s : TreeStrategy N} (hfail : NeverFails τ)
    (hN : N ≤ maxStoreDepth) (hd : 8 ≤ d) (ho : HeaderAt (ByteOrigin.bytes o) s)
    (hs : Loadable (ByteOrigin.bytes o) s) :
    ∃ st' : CoordMapStore 64 N τ, CoordMapStore.load o d = .ok st' ∧ Opened o s st' :=
  opened_of_load hfail hd hs.recordCount (load_present (m := ⟨freshFields N d, o⟩) hN rfl ho hs)

/-- The same where the origin may fail: what `load` returns, it returns with those fields. -/
theorem opened_of_header {o : τ} {d : ℕ} {s : TreeStrategy N} (hN : N ≤ maxStoreDepth) (hd : 8 ≤ d)
    (ho : HeaderAt (ByteOrigin.bytes o) s) (hs : Loadable (ByteOrigin.bytes o) s)
    {st' : CoordMapStore 64 N τ} (hload : CoordMapStore.load o d = .ok st') : Opened o s st' := by
  obtain ⟨st, hst, hop⟩ | ⟨e, he, -⟩ := opened_or_failed hd hs.recordCount
    (load_present (m := ⟨freshFields N d, o⟩) hN rfl ho hs)
  · cases hload.symm.trans hst
    exact hop
  · cases hload.symm.trans he

theorem Opened.holds {o : τ} {st' : CoordMapStore 64 N τ} (h : Holds st L)
    (ho : ByteOrigin.bytes o = StrategyCalls.image st.mount) (hop : Opened o (liveFields st) st') :
    Holds st' L := by
  refine ⟨⟨h.mount.valid, ?_, ?_⟩, hop.len.trans h.len⟩
  · rw [hop.strategy]
    exact tracks_liveFields h.mount.fields
  · rw [hop.image, ho]
    exact h.mount.stored

/-- Opening the bytes of a store whose header is current gives the store back. -/
theorem load_current {o : τ} {d : ℕ} (hfail : NeverFails τ) (hN : 0 < N) (hN' : N ≤ maxStoreDepth)
    (hd : 8 ≤ d) (h : Holds st L) (ho : ByteOrigin.bytes o = image st.mount)
    (hhead : HeaderAt (image st.mount) (liveFields st)) :
    ∃ st' : CoordMapStore 64 N τ, CoordMapStore.load o d = .ok st' ∧
      Opened o (liveFields st) st' ∧ Holds st' L := by
  obtain ⟨st', hload, hop⟩ := load_header hfail hN' hd (ho ▸ hhead) (ho ▸ loadable_live h hN)
  exact ⟨st', hload, hop, hop.holds h ho⟩

end Chton.StoreReopening
