import Chton.HeaderCalls
import Chton.MirroredPrograms
import Chton.RecordCalls

/-!
# Mirrored origins

If the calls of two origins mirror each other, so do all programs of the strategy and of the
store over them: they read the same bytes, take the same branches and write the same bytes.
No program writes nothing, so the origins may differ on empty writes.
-/

namespace Chton.OriginMirrors
open OutcomePrograms MirroredPrograms ByteRegions LittleEndianWords Origins TreeStrategyProgram
open CoordMapProgram HeaderCalls

variable {N : ℕ} {σ τ α : Type} [Origin σ] [Origin τ] {M : Mirror σ τ}

/-- Related states do not overrun. -/
def steady (M : Mirror σ τ) : Mirror σ τ := { M with overrun := fun _ => False }

structure OriginsMirror (M : Mirror σ τ) : Prop where
  len : ∀ s t, M.related s t → Origin.len s = Origin.len t
  header : Mirrors (steady M) (Origin.read 0 headerLen) (Origin.read 0 headerLen)
  read : ∀ offset n, Mirrors M (Origin.read offset n) (Origin.read offset n)
  write : ∀ offset data, data ≠ [] → Mirrors M (Origin.write offset data) (Origin.write offset data)
  flush : Mirrors M Origin.flush Origin.flush

structure MountsRelated (M : Mirror σ τ) (m : Mount N σ) (m' : Mount N τ) : Prop where
  strategy : m.strategy = m'.strategy
  nodeSize : m.strategy.nodeSize = nodeSpan
  origin : M.related m.origin m'.origin

structure StoresRelated {w : ℕ} (M : Mirror σ τ) (st : CoordMapStore w N σ)
    (st' : CoordMapStore w N τ) : Prop where
  mount : MountsRelated M st.mount st'.mount
  len : st.len = st'.len
  dirty : st.dirty = st'.dirty

variable (N) in
def mountMirror (M : Mirror σ τ) : Mirror (Mount N σ) (Mount N τ) where
  related := MountsRelated M
  overrun m := M.overrun m.origin

variable (N) in
def storeMirror (w : ℕ) (M : Mirror σ τ) : Mirror (CoordMapStore w N σ) (CoordMapStore w N τ) where
  related := StoresRelated M
  overrun st := M.overrun st.mount.origin

abbrev MountMirrors (M : Mirror σ τ) (x : BindingProgram N σ α) (y : BindingProgram N τ α) : Prop :=
  Mirrors (mountMirror N M) x y

omit [Origin σ] [Origin τ] in
theorem mirrors_onOrigin {x : EStateM (Stop OriginError) σ α} {y : EStateM (Stop OriginError) τ α}
    (hx : Mirrors M x y) : MountMirrors M (onOrigin x : BindingProgram N σ α) (onOrigin y) := by
  apply hx.focus
  · exact fun _ _ h => h.origin
  · exact fun _ _ _ _ h ho => ⟨h.strategy, h.nodeSize, ho⟩
  · exact fun _ _ h => h

omit [Origin σ] [Origin τ] in
theorem mirrors_addU64 {ε σ τ : Type} {M : Mirror σ τ} (a b : ℕ) :
    Mirrors M (addU64 a b : EStateM (Stop ε) σ ℕ) (addU64 a b) :=
  (Mirrors.pure _).ite (Mirrors.throw _)

omit [Origin σ] [Origin τ] in
theorem mirrors_slotPos (node : ℕ) (index : Coord) :
    MountMirrors M (slotPos node index : BindingProgram N σ ℕ) (slotPos node index) :=
  (mirrors_addU64 _ _).bind fun _ => mirrors_addU64 _ _

omit [Origin σ] [Origin τ] in
/-- Programs that start from the fields of the strategy. -/
theorem mirrors_get {x : Mount N σ → BindingProgram N σ α} {y : Mount N τ → BindingProgram N τ α}
    (h : ∀ (s : TreeStrategy N) (o : σ) (o' : τ), MountsRelated M ⟨s, o⟩ ⟨s, o'⟩ →
      MirrorsAt (mountMirror N M) (x ⟨s, o⟩) (y ⟨s, o'⟩) ⟨s, o⟩ ⟨s, o'⟩) :
    MountMirrors M (get >>= x) (get >>= y) := by
  apply mirrors_get_bind
  intro m m' hm
  obtain ⟨s, o⟩ := m
  obtain ⟨s', o'⟩ := m'
  obtain ⟨rfl, hsize, ho⟩ := hm
  exact h s o o' ⟨rfl, hsize, ho⟩

omit [Origin σ] [Origin τ] in
theorem mirrors_checkedBump (size : ℕ) :
    MountMirrors M (checkedBump size : BindingProgram N σ ℕ) (checkedBump size) := by
  apply mirrors_get
  intro s o o' hm
  have hbumped : (mountMirror N M).related ⟨{ s with bump := s.bump + size }, o⟩
      ⟨{ s with bump := s.bump + size }, o'⟩ := ⟨rfl, hm.nodeSize, hm.origin⟩
  apply MirrorsAt.ite
  · intro _
    apply (mirrorsAt_set hbumped).bind
    exact fun _ _ _ h => .pure h _
  · exact fun _ => Mirrors.throw _ _ _ hm

theorem length_ne_zero {b : Bytes} {n : ℕ} (h : b.length = n) (hn : 0 < n) : b ≠ [] :=
  List.ne_nil_of_length_pos (h.symm ▸ hn)

theorem mirrors_originLen (hlen : ∀ s t, M.related s t → Origin.len s = Origin.len t) :
    MountMirrors M (originLen : BindingProgram N σ ℕ) originLen := by
  apply mirrors_get
  intro s o o' hm
  rw [hlen o o' hm.origin]
  exact MirrorsAt.pure (M := mountMirror N M) hm _

/-- `load` only reads the header. -/
theorem mirrors_load (hlen : ∀ s t, M.related s t → Origin.len s = Origin.len t)
    (hread : Mirrors M (Origin.read 0 headerLen) (Origin.read 0 headerLen)) :
    MountMirrors M (load : BindingProgram N σ Unit) load := by
  apply (mirrors_originLen hlen).bind
  intro len
  apply (Mirrors.pure _).ite
  apply (mirrors_onOrigin hread).bind
  intro data
  apply (Mirrors.pure _).ite
  apply mirrors_get
  intro s o o' hm
  have hthrow := Mirrors.throw (M := mountMirror N M) (α := Unit) corruptHeader
  apply MirrorsAt.ite
  · exact fun _ => hthrow _ _ hm
  · intro _
    apply MirrorsAt.ite
    · exact fun _ => hthrow _ _ hm
    · intro _
      refine MirrorsAt.bind (mirrorsAt_set ?_) ?_
      · exact ⟨rfl, hm.nodeSize, hm.origin⟩
      · intro _ m m' hm'
        exact (hthrow.ite (hthrow.ite (Mirrors.pure _))) m m' hm'

variable (hM : OriginsMirror M)
include hM

theorem mirrors_readOrigin (offset n : ℕ) :
    MountMirrors M (onOrigin (Origin.read offset n) : BindingProgram N σ Bytes)
      (onOrigin (Origin.read offset n)) := mirrors_onOrigin (hM.read offset n)

theorem mirrors_writeOrigin (offset : ℕ) {data : Bytes} (hdata : data ≠ []) :
    MountMirrors M (onOrigin (Origin.write offset data) : BindingProgram N σ Unit)
      (onOrigin (Origin.write offset data)) := mirrors_onOrigin (hM.write offset data hdata)

theorem mirrors_checkChildInBounds (child : ℕ) :
    MountMirrors M (checkChildInBounds child : BindingProgram N σ Unit)
      (checkChildInBounds child) :=
  ((mirrors_originLen hM.len).bind fun _ => (Mirrors.throw _).ite (Mirrors.pure _)).ite (Mirrors.throw _)

theorem mirrors_readSlot (pos : ℕ) :
    MountMirrors M (readSlot pos : BindingProgram N σ ℕ) (readSlot pos) :=
  (mirrors_originLen hM.len).bind fun _ => (Mirrors.pure _).ite
    ((mirrors_readOrigin hM _ _).bind fun _ => (Mirrors.throw _).ite (Mirrors.pure _))

theorem mirrors_readBitmap (node : ℕ) :
    MountMirrors M (readBitmap node : BindingProgram N σ Bytes) (readBitmap node) :=
  (mirrors_originLen hM.len).bind fun _ => (Mirrors.pure _).ite
    ((mirrors_readOrigin hM _ _).bind fun _ => (Mirrors.throw _).ite (Mirrors.pure _))

theorem mirrors_writeU64 (pos value : ℕ) :
    MountMirrors M (writeU64 pos value : BindingProgram N σ Unit) (writeU64 pos value) :=
  mirrors_writeOrigin hM _ (length_ne_zero (length_encode 8 value) (by decide))

theorem mirrors_writeBitmapBit (node : ℕ) (index : Coord) (value : ℕ) :
    MountMirrors M (writeBitmapBit node index value : BindingProgram N σ Unit)
      (writeBitmapBit node index value) := by
  apply (mirrors_addU64 _ _).bind
  intro bytePos
  apply (mirrors_readOrigin hM _ _).bind
  intro buf
  cases buf with
  | nil => exact Mirrors.throw _
  | cons byte rest => exact mirrors_writeOrigin hM _ (List.cons_ne_nil _ _)

theorem mirrors_writeSlot (node : ℕ) (index : Coord) (value : ℕ) :
    MountMirrors M (writeSlot node index value : BindingProgram N σ Unit)
      (writeSlot node index value) :=
  (mirrors_slotPos _ _).bind fun _ => (mirrors_writeU64 hM _ _).bind fun _ =>
    mirrors_writeBitmapBit hM _ _ _

theorem mirrors_locateFrom (pathLen node : ℕ) (rest : List Coord) :
    MountMirrors M (locateFrom pathLen node rest : BindingProgram N σ Slot)
      (locateFrom pathLen node rest) := by
  induction rest generalizing node with
  | nil => exact Mirrors.throw _
  | cons coord rest ih =>
    apply (mirrors_slotPos _ _).bind
    intro pos
    apply (mirrors_readSlot hM _).bind
    intro value
    apply (Mirrors.pure _).ite
    apply (Mirrors.pure _).ite
    exact (mirrors_checkChildInBounds hM _).bind fun _ => ih value

theorem mirrors_allocNode : MountMirrors M (allocNode : BindingProgram N σ ℕ) allocNode := by
  apply mirrors_get
  intro s o o' hm
  have hsize : s.nodeSize = nodeSpan := hm.nodeSize
  have hzeros : List.replicate s.nodeSize (0 : UInt8) ≠ [] :=
    length_ne_zero List.length_replicate (hsize ▸ by decide)
  exact ((mirrors_checkedBump s.nodeSize).bind fun node =>
    (mirrors_writeOrigin hM node hzeros).bind fun _ => Mirrors.pure node) _ _ hm

theorem mirrors_locateOrCreateFrom (pathLen node : ℕ) (rest : List Coord) :
    MountMirrors M (locateOrCreateFrom pathLen node rest : BindingProgram N σ Slot)
      (locateOrCreateFrom pathLen node rest) := by
  induction rest generalizing node with
  | nil => exact Mirrors.throw _
  | cons coord rest ih =>
    apply (mirrors_slotPos _ _).bind
    intro pos
    apply (mirrors_readSlot hM _).bind
    intro value
    apply (Mirrors.pure _).ite
    apply Mirrors.ite
    · apply (mirrors_allocNode hM).bind
      intro child
      exact (mirrors_writeSlot hM _ _ _).bind fun _ => ih child
    · exact (mirrors_checkChildInBounds hM _).bind fun _ => ih value

omit hM [Origin σ] [Origin τ] in
theorem mirrors_modifyStrategy {f : TreeStrategy N → TreeStrategy N}
    (hf : ∀ s, (f s).nodeSize = s.nodeSize) :
    MountMirrors M (modify fun m => { m with strategy := f m.strategy } : BindingProgram N σ PUnit)
      (modify fun m => { m with strategy := f m.strategy }) :=
  mirrors_modify fun m _ h =>
    ⟨congrArg f h.strategy, (hf m.strategy).trans h.nodeSize, h.origin⟩

theorem mirrors_allocRecord :
    MountMirrors M (allocRecord : BindingProgram N σ ℕ) allocRecord := by
  apply mirrors_get
  intro s o o' hm
  have hfree : MountMirrors M (do
      let len ← originLen
      if s.freeHead ≥ len then throw (.err (.corrupt s.freeHead 0)) else
      let next ← readSlot s.freeHead
      modify fun m => { m with strategy := { m.strategy with freeHead := next } }
      pure s.freeHead : BindingProgram N σ ℕ) (do
      let len ← originLen
      if s.freeHead ≥ len then throw (.err (.corrupt s.freeHead 0)) else
      let next ← readSlot s.freeHead
      modify fun m => { m with strategy := { m.strategy with freeHead := next } }
      pure s.freeHead) := by
    apply (mirrors_originLen hM.len).bind
    intro len
    apply (Mirrors.throw _).ite
    apply (mirrors_readSlot hM _).bind
    intro next
    apply (mirrors_modifyStrategy (f := fun s => { s with freeHead := next }) fun _ => rfl).bind
    exact fun _ => Mirrors.pure _
  exact hfree.ite (mirrors_checkedBump s.recordSlotSize) _ _ hm

theorem mirrors_freeRecord (offset : ℕ) :
    MountMirrors M (freeRecord offset : BindingProgram N σ Unit) (freeRecord offset) := by
  apply mirrors_get
  intro s o o' hm
  exact ((mirrors_writeU64 hM offset s.freeHead).bind fun _ =>
    mirrors_modifyStrategy (f := fun s => { s with freeHead := offset }) fun _ => rfl) _ _ hm

theorem mirrors_writeHeader :
    MountMirrors M (writeHeader : BindingProgram N σ Unit) writeHeader := by
  apply mirrors_get
  intro s o o' hm
  exact mirrors_writeOrigin hM 0 (length_ne_zero (length_headerBytes s) (by decide)) _ _ hm

theorem mirrors_reset : MountMirrors M (reset : BindingProgram N σ Unit) reset := by
  apply (mirrors_modifyStrategy (f := fun s => { s with
    bump := rootOffset + s.nodeSize, freeHead := absent, recordCount := 0 }) fun _ => rfl).bind
  intro _
  apply mirrors_get
  intro s o o' hm
  have hsize : s.nodeSize = nodeSpan := hm.nodeSize
  have hzeros : List.replicate s.nodeSize (0 : UInt8) ≠ [] :=
    length_ne_zero List.length_replicate (hsize ▸ by decide)
  exact ((mirrors_writeOrigin hM rootOffset hzeros).bind fun _ => mirrors_writeHeader hM) _ _ hm

theorem mirrors_iterNode (levels node depth : ℕ) (path : CoordPath N)
    (out : List (CoordPath N × ℕ)) :
    MountMirrors M (iterNode pushEntry levels node depth path out : BindingProgram N σ _)
      (iterNode pushEntry levels node depth path out) := by
  induction levels generalizing node depth path out with
  | zero => exact Mirrors.pure _
  | succ levels ih =>
    apply (mirrors_readBitmap hM _).bind
    intro bitmap
    apply Mirrors.foldlM
    intro out index
    apply (Mirrors.pure _).ite
    apply (mirrors_slotPos _ _).bind
    intro pos
    apply (mirrors_readSlot hM _).bind
    intro value
    apply (Mirrors.pure _).ite
    apply (Mirrors.pure _).ite
    exact (mirrors_checkChildInBounds hM _).bind fun _ => ih value _ _ out

variable {w : ℕ}

abbrev StoreMirrors (M : Mirror σ τ) (x : MapProgram w N σ α) (y : MapProgram w N τ α) : Prop :=
  Mirrors (storeMirror N w M) x y

omit hM [Origin σ] [Origin τ] in
theorem mirrors_onStrategy {x : BindingProgram N σ α} {y : BindingProgram N τ α}
    (hx : MountMirrors M x y) : StoreMirrors M (onStrategy x : MapProgram w N σ α) (onStrategy y) := by
  apply hx.focus
  · exact fun _ _ h => h.mount
  · exact fun _ _ _ _ h hm => ⟨hm, h.len, h.dirty⟩
  · exact fun _ _ h => h

omit hM [Origin σ] [Origin τ] in
theorem mirrors_onMapOrigin {x : EStateM (Stop OriginError) σ α}
    {y : EStateM (Stop OriginError) τ α} (hx : Mirrors M x y) :
    StoreMirrors M (onMapOrigin x : MapProgram w N σ α) (onMapOrigin y) := by
  apply hx.focus
  · exact fun _ _ h => h.mount.origin
  · exact fun _ _ _ _ h ho => ⟨⟨h.mount.strategy, h.mount.nodeSize, ho⟩, h.len, h.dirty⟩
  · exact fun _ _ h => h

omit hM [Origin σ] [Origin τ] in
theorem mirrors_maxValueLen :
    StoreMirrors M (maxValueLen : MapProgram w N σ ℕ) maxValueLen := by
  apply mirrors_get_bind
  intro st st' hst
  have hslot : st'.recordSlotSize = st.recordSlotSize :=
    congrArg TreeStrategy.recordSlotSize hst.mount.strategy.symm
  rw [hslot]
  exact (Mirrors.throw _).ite (Mirrors.pure _) _ _ hst

theorem mirrors_readRecord (offset : ℕ) :
    StoreMirrors M (readRecord offset : MapProgram w N σ Bytes) (readRecord offset) := by
  apply (mirrors_onMapOrigin (hM.read _ _)).bind
  intro header
  apply (Mirrors.throw _).ite
  apply mirrors_maxValueLen.bind
  intro maxLen
  apply (Mirrors.throw _).ite
  apply ((Mirrors.pure _).ite (Mirrors.throw _)).bind
  intro _
  apply (mirrors_addU64 _ _).bind
  intro payload
  apply (mirrors_onMapOrigin (hM.read _ _)).bind
  exact fun _ => (Mirrors.throw _).ite (Mirrors.pure _)

theorem mirrors_entries :
    StoreMirrors M (entries : MapProgram w N σ (List (CoordKey N × Bytes))) entries := by
  apply (mirrors_onStrategy (mirrors_iterNode hM _ _ _ _ _)).bind
  intro found
  apply Mirrors.foldlM
  exact fun _ _ => (mirrors_readRecord hM _).bind fun _ => Mirrors.pure _

theorem mirrors_getPath (path : CoordPath N) :
    StoreMirrors M (getPath path : MapProgram w N σ (Option Bytes)) (getPath path) := by
  apply (mirrors_onStrategy (mirrors_locateFrom hM _ _ _)).bind
  intro slot
  apply (Mirrors.pure _).ite
  exact (mirrors_readRecord hM _).bind fun _ => Mirrors.pure _

omit hM [Origin σ] [Origin τ] in
theorem mirrors_bumpLen : StoreMirrors M (bumpLen : MapProgram w N σ Unit) bumpLen := by
  apply mirrors_get_bind
  intro st st' hst
  rw [← hst.len]
  apply MirrorsAt.ite
  · exact fun _ => mirrorsAt_set ⟨hst.mount, rfl, hst.dirty⟩
  · exact fun _ => Mirrors.throw _ _ _ hst

theorem mirrors_writeRecord (record : ℕ) (value : Bytes) :
    StoreMirrors M (writeRecord record value : MapProgram w N σ Unit) (writeRecord record value) := by
  have hlength := length_ne_zero (length_encode 8 value.length) (by decide)
  apply (mirrors_onMapOrigin (hM.write _ _ hlength)).bind
  intro _
  by_cases hvalue : value = []
  · rw [if_pos hvalue, if_pos hvalue]
    exact Mirrors.pure _
  · rw [if_neg hvalue, if_neg hvalue]
    apply (mirrors_addU64 _ _).bind
    exact fun _ => mirrors_onMapOrigin (hM.write _ _ hvalue)

omit hM [Origin σ] [Origin τ] in
/-- The fields that the store itself counts. -/
theorem mirrors_modifyStore {f : ℕ → ℕ} (dirty : Bool) :
    StoreMirrors M
      (modify fun st => { st with len := f st.len, dirty := dirty } : MapProgram w N σ PUnit)
      (modify fun st => { st with len := f st.len, dirty := dirty }) :=
  mirrors_modify fun _ _ h => ⟨h.mount, congrArg f h.len, rfl⟩

theorem mirrors_putPath (path : CoordPath N) (value : Bytes) :
    StoreMirrors M (putPath path value : MapProgram w N σ (Option Bytes)) (putPath path value) := by
  apply mirrors_maxValueLen.bind
  intro maxLen
  apply (Mirrors.throw _).ite
  apply (mirrors_onStrategy (mirrors_locateOrCreateFrom hM _ _ _)).bind
  intro slot
  apply Mirrors.ite
  · apply (mirrors_readRecord hM _).bind
    intro prev
    apply (mirrors_writeRecord hM _ _).bind
    intro _
    exact (mirrors_modifyStore (f := id) true).bind fun _ => Mirrors.pure _
  · apply (mirrors_onStrategy (mirrors_allocRecord hM)).bind
    intro record
    apply (mirrors_onStrategy (mirrors_writeSlot hM _ _ _)).bind
    intro _
    apply mirrors_bumpLen.bind
    intro _
    apply (mirrors_writeRecord hM _ _).bind
    intro _
    exact (mirrors_modifyStore (f := id) true).bind fun _ => Mirrors.pure _

theorem mirrors_removePath (path : CoordPath N) :
    StoreMirrors M (removePath path : MapProgram w N σ (Option Bytes)) (removePath path) := by
  apply (mirrors_onStrategy (mirrors_locateFrom hM _ _ _)).bind
  intro slot
  apply (Mirrors.pure _).ite
  apply (mirrors_readRecord hM _).bind
  intro prev
  apply (mirrors_onStrategy (mirrors_freeRecord hM _)).bind
  intro _
  apply (mirrors_onStrategy (mirrors_writeSlot hM _ _ _)).bind
  intro _
  exact (mirrors_modifyStore (f := fun len => len - 1) true).bind fun _ => Mirrors.pure _

theorem mirrors_clearChecked :
    StoreMirrors M (clearChecked : MapProgram w N σ Unit) clearChecked := by
  apply (mirrors_onStrategy (mirrors_reset hM)).bind
  exact fun _ => mirrors_modifyStore (f := fun _ => 0) false

theorem mirrors_flush : StoreMirrors M (flush : MapProgram w N σ Unit) flush := by
  apply mirrors_get_bind
  intro st st' hst
  rw [← hst.len]
  have hcount := mirrors_onStrategy (w := w) (M := M)
    (mirrors_modifyStrategy (f := fun s : TreeStrategy N => { s with recordCount := st.len })
      fun _ => rfl)
  apply (hcount.bind fun _ => (mirrors_onStrategy (mirrors_writeHeader hM)).bind fun _ =>
    (mirrors_onMapOrigin hM.flush).bind fun _ => mirrors_modifyStore (f := id) false) _ _ hst

/-- `load` over related origins: the same error, or related stores. -/
theorem load_mirrors {o : σ} {o' : τ} (ho : M.related o o') (d : ℕ) :
    (∃ e, (CoordMapStore.load o d : Except (Stop MapError) (CoordMapStore w N σ)) = .error e ∧
        (CoordMapStore.load o' d : Except (Stop MapError) (CoordMapStore w N τ)) = .error e) ∨
      ∃ (st : CoordMapStore w N σ) (st' : CoordMapStore w N τ), CoordMapStore.load o d = .ok st ∧
        CoordMapStore.load o' d = .ok st' ∧ StoresRelated M st st' := by
  rw [CoordMapStore.load, CoordMapStore.load, loadOrNew, loadOrNew]
  cases hnew : (TreeStrategy.new d : Except (Stop BindingError) (TreeStrategy N)) with
  | error e => exact .inl ⟨_, rfl, rfl⟩
  | ok s =>
    have hsize : s.nodeSize = nodeSpan := by
      rw [TreeStrategy.new] at hnew
      split_ifs at hnew
      rw [← Except.ok.inj hnew]
    have hload := mirrors_load (N := N) (M := steady M) hM.len hM.header ⟨s, o⟩ ⟨s, o'⟩
      ⟨rfl, hsize, ho⟩
    rcases hload.cases with ⟨_, _, _, hf⟩ | ⟨_, m, m', hx, hy, hm⟩ | ⟨e, m, m', hx, hy, -⟩
    · exact hf.elim
    · apply Or.inr
      refine ⟨⟨m, asUsize w m.strategy.recordCount, false⟩,
        ⟨m', asUsize w m'.strategy.recordCount, false⟩, by simp only [bind, Except.bind, hx],
        by simp only [bind, Except.bind, hy], ?_⟩
      exact ⟨⟨hm.strategy, hm.nodeSize, hm.origin⟩, by rw [hm.strategy], rfl⟩
    · apply Or.inl
      exact ⟨e.map .binding, by simp only [bind, Except.bind, hx], by simp only [bind, Except.bind, hy]⟩

end Chton.OriginMirrors
