import Chton.CoordMapProgram

/-!
# What reads and writes leave alone

Apart from `flush`, the programs of the store only read and write their origin. Whatever
reads and writes leave alone in an origin, every one of these programs leaves alone too.
The programs that only read leave alone whatever reads do, in the store as in its origin.
-/

namespace Chton.OriginFrames
open OutcomePrograms ByteRegions Origins TreeStrategyProgram CoordMapProgram

variable {w N : ℕ} {σ δ α : Type} [Origin σ] {g : σ → δ} {f : Mount N σ → δ}

/-- Reads and writes leave `g` alone. -/
structure Untouched (g : σ → δ) : Prop where
  read : ∀ offset n, Keeps g (Origin.read offset n : EStateM (Stop OriginError) σ Bytes)
  write : ∀ offset data, Keeps g (Origin.write offset data : EStateM (Stop OriginError) σ Unit)

/-- What is left alone in the origin, seen from a strategy program. -/
abbrev KeepsMount (g : σ → δ) (x : BindingProgram N σ α) : Prop := Keeps (fun m => g m.origin) x

abbrev KeepsStore (g : σ → δ) (x : MapProgram w N σ α) : Prop :=
  Keeps (fun st => g st.mount.origin) x

abbrev ReadsKeep (f : Mount N σ → δ) : Prop :=
  ∀ offset n, Keeps f (onOrigin (Origin.read offset n) : BindingProgram N σ Bytes)

omit [Origin σ] in
theorem keeps_onOrigin {x : EStateM (Stop OriginError) σ α} (hx : Keeps g x) :
    KeepsMount g (onOrigin x : BindingProgram N σ α) :=
  hx.focus (fun _ => rfl) fun _ _ => rfl

theorem Untouched.reads (hg : Untouched g) : ReadsKeep fun m : Mount N σ => g m.origin :=
  fun _ _ => keeps_onOrigin (hg.read _ _)

theorem keeps_originLen : Keeps f (originLen : BindingProgram N σ ℕ) :=
  Keeps.get.bind fun _ => Keeps.pure _

omit [Origin σ] in
theorem keeps_addU64 {ε τ : Type} {g : τ → δ} (a b : ℕ) :
    Keeps g (addU64 a b : EStateM (Stop ε) τ ℕ) :=
  (Keeps.pure _).ite (Keeps.throw _)

omit [Origin σ] in
theorem keeps_slotPos (node : ℕ) (index : Coord) :
    Keeps f (slotPos node index : BindingProgram N σ ℕ) :=
  (keeps_addU64 _ _).bind fun _ => keeps_addU64 _ _

theorem keeps_checkChildInBounds (child : ℕ) :
    Keeps f (checkChildInBounds child : BindingProgram N σ Unit) :=
  (keeps_originLen.bind fun _ => (Keeps.throw _).ite (Keeps.pure _)).ite (Keeps.throw _)

theorem keeps_readSlot (hf : ReadsKeep f) (pos : ℕ) :
    Keeps f (readSlot pos : BindingProgram N σ ℕ) :=
  keeps_originLen.bind fun _ => (Keeps.pure _).ite
    ((hf _ _).bind fun _ => (Keeps.throw _).ite (Keeps.pure _))

theorem keeps_readBitmap (hf : ReadsKeep f) (node : ℕ) :
    Keeps f (readBitmap node : BindingProgram N σ Bytes) :=
  keeps_originLen.bind fun _ => (Keeps.pure _).ite
    ((hf _ _).bind fun _ => (Keeps.throw _).ite (Keeps.pure _))

theorem keeps_locateFrom (hf : ReadsKeep f) (pathLen node : ℕ) (rest : List Coord) :
    Keeps f (locateFrom pathLen node rest : BindingProgram N σ Slot) := by
  induction rest generalizing node with
  | nil => exact Keeps.throw _
  | cons coord rest ih =>
    refine (keeps_slotPos _ _).bind fun _ => (keeps_readSlot hf _).bind fun value => ?_
    refine (Keeps.pure _).ite ((Keeps.pure _).ite ?_)
    exact (keeps_checkChildInBounds _).bind fun _ => ih value

theorem keeps_iterNode (hf : ReadsKeep f) (levels node depth : ℕ) (path : CoordPath N)
    (out : List (CoordPath N × ℕ)) :
    Keeps f (iterNode pushEntry levels node depth path out : BindingProgram N σ _) := by
  induction levels generalizing node depth path out with
  | zero => exact Keeps.pure _
  | succ levels ih =>
    refine (keeps_readBitmap hf _).bind fun _ => Keeps.foldlM (fun out index => ?_) _ _
    refine (Keeps.pure _).ite ((keeps_slotPos _ _).bind fun _ => ?_)
    refine (keeps_readSlot hf _).bind fun value => (Keeps.pure _).ite ((Keeps.pure _).ite ?_)
    exact (keeps_checkChildInBounds _).bind fun _ => ih value _ _ out

omit [Origin σ] in
theorem keeps_checkedBump (size : ℕ) : KeepsMount g (checkedBump size : BindingProgram N σ ℕ) := by
  apply keeps_get_bind
  intro m
  refine ensures_ite (fun _ => ?_) fun _ => ensures_throw.mpr rfl
  rw [ensures_bind, ensures_set, ensures_pure]

variable (hg : Untouched g)
include hg

theorem keeps_writeU64 (pos value : ℕ) :
    KeepsMount g (writeU64 pos value : BindingProgram N σ Unit) :=
  keeps_onOrigin (hg.write _ _)

theorem keeps_writeBitmapBit (node : ℕ) (index : Coord) (value : ℕ) :
    KeepsMount g (writeBitmapBit node index value : BindingProgram N σ Unit) := by
  refine (keeps_addU64 _ _).bind fun _ => (keeps_onOrigin (hg.read _ _)).bind fun buf => ?_
  cases buf with
  | nil => exact Keeps.throw _
  | cons byte rest => exact keeps_onOrigin (hg.write _ _)

theorem keeps_writeSlot (node : ℕ) (index : Coord) (value : ℕ) :
    KeepsMount g (writeSlot node index value : BindingProgram N σ Unit) :=
  (keeps_slotPos _ _).bind fun _ => (keeps_writeU64 hg _ _).bind fun _ =>
    keeps_writeBitmapBit hg _ _ _

theorem keeps_allocNode : KeepsMount g (allocNode : BindingProgram N σ ℕ) :=
  Keeps.get.bind fun _ => (keeps_checkedBump _).bind fun _ =>
    (keeps_onOrigin (hg.write _ _)).bind fun _ => Keeps.pure _

theorem keeps_locateOrCreateFrom (pathLen node : ℕ) (rest : List Coord) :
    KeepsMount g (locateOrCreateFrom pathLen node rest : BindingProgram N σ Slot) := by
  induction rest generalizing node with
  | nil => exact Keeps.throw _
  | cons coord rest ih =>
    refine (keeps_slotPos _ _).bind fun _ => (keeps_readSlot hg.reads _).bind fun value => ?_
    refine (Keeps.pure _).ite (Keeps.ite ?_ ?_)
    · exact (keeps_allocNode hg).bind fun child => (keeps_writeSlot hg _ _ _).bind fun _ => ih child
    · exact (keeps_checkChildInBounds _).bind fun _ => ih value

theorem keeps_allocRecord : KeepsMount g (allocRecord : BindingProgram N σ ℕ) := by
  refine Keeps.get.bind fun _ => Keeps.ite ?_ (keeps_checkedBump _)
  refine keeps_originLen.bind fun _ => (Keeps.throw _).ite ?_
  refine (keeps_readSlot hg.reads _).bind fun _ => ?_
  refine Keeps.bind (keeps_modify ?_) fun _ => Keeps.pure _
  exact fun _ => rfl

theorem keeps_freeRecord (offset : ℕ) :
    KeepsMount g (freeRecord offset : BindingProgram N σ Unit) :=
  Keeps.get.bind fun _ => (keeps_writeU64 hg _ _).bind fun _ => keeps_modify fun _ => rfl

theorem keeps_writeHeader : KeepsMount g (writeHeader : BindingProgram N σ Unit) :=
  Keeps.get.bind fun _ => keeps_onOrigin (hg.write _ _)

theorem keeps_reset : KeepsMount g (reset : BindingProgram N σ Unit) := by
  refine Keeps.bind (keeps_modify ?_) fun _ => Keeps.get.bind fun _ => ?_
  · exact fun _ => rfl
  · exact (keeps_onOrigin (hg.write _ _)).bind fun _ => keeps_writeHeader hg

theorem keeps_load : KeepsMount g (load : BindingProgram N σ Unit) := by
  refine keeps_originLen.bind fun len => (Keeps.pure _).ite ?_
  refine (keeps_onOrigin (hg.read _ _)).bind fun data => (Keeps.pure _).ite ?_
  apply keeps_get_bind
  intro m
  refine ensures_ite (fun _ => ensures_throw.mpr rfl) fun _ => ?_
  refine ensures_ite (fun _ => ensures_throw.mpr rfl) fun _ => ?_
  rw [ensures_bind, ensures_set]
  refine ensures_ite (fun _ => ensures_throw.mpr rfl) fun _ => ?_
  exact ensures_ite (fun _ => ensures_throw.mpr rfl) fun _ => ensures_pure.mpr rfl

omit hg [Origin σ] in
theorem keeps_onStrategy {x : BindingProgram N σ α} (hx : KeepsMount g x) :
    KeepsStore g (onStrategy x : MapProgram w N σ α) :=
  hx.focus (fun _ => rfl) fun _ _ => rfl

omit hg [Origin σ] in
theorem keeps_onMapOrigin {x : EStateM (Stop OriginError) σ α} (hx : Keeps g x) :
    KeepsStore g (onMapOrigin x : MapProgram w N σ α) :=
  hx.focus (fun _ => rfl) fun _ _ => rfl

omit hg [Origin σ] in
/-- What stays in the mount stays in the store, with the length and the flag. -/
theorem keeps_mount {x : BindingProgram N σ α} (hx : Keeps f x) :
    Keeps (fun st => (f st.mount, st.len, st.dirty)) (onStrategy x : MapProgram w N σ α) :=
  fun st => ensures_focus.mpr ((hx st.mount).mono
    (fun _ _ hm => congrArg (fun z => (z, st.len, st.dirty)) hm)
    fun _ _ hm => congrArg (fun z => (z, st.len, st.dirty)) hm)

omit hg [Origin σ] in
theorem keeps_originCall {x : EStateM (Stop OriginError) σ α}
    (hx : Keeps f (onOrigin x : BindingProgram N σ α)) :
    Keeps (fun st => (f st.mount, st.len, st.dirty)) (onMapOrigin x : MapProgram w N σ α) :=
  fun st => ensures_focus.mpr ((ensures_focus.mp (hx st.mount)).mono
    (fun _ _ hm => congrArg (fun z => (z, st.len, st.dirty)) hm)
    fun _ _ hm => congrArg (fun z => (z, st.len, st.dirty)) hm)

omit hg [Origin σ] in
theorem keeps_maxValueLen {F : CoordMapStore w N σ → δ} :
    Keeps F (maxValueLen : MapProgram w N σ ℕ) :=
  Keeps.get.bind fun _ => (Keeps.throw _).ite (Keeps.pure _)

omit hg in
theorem keeps_readRecord {F : CoordMapStore w N σ → δ}
    (hF : ∀ offset n, Keeps F (onMapOrigin (Origin.read offset n) : MapProgram w N σ Bytes))
    (offset : ℕ) : Keeps F (readRecord offset : MapProgram w N σ Bytes) := by
  refine (hF _ _).bind fun _ => (Keeps.throw _).ite ?_
  refine keeps_maxValueLen.bind fun _ => (Keeps.throw _).ite ?_
  refine ((Keeps.pure _).ite (Keeps.throw _)).bind fun _ => (keeps_addU64 _ _).bind fun _ => ?_
  exact (hF _ _).bind fun _ => (Keeps.throw _).ite (Keeps.pure _)

theorem Untouched.readRecord (offset : ℕ) :
    KeepsStore g (CoordMapProgram.readRecord offset : MapProgram w N σ Bytes) :=
  keeps_readRecord (fun _ _ => keeps_onMapOrigin (hg.read _ _)) offset

omit hg in
/-- Listing the entries changes nothing that reads do not change. -/
theorem keeps_entries (hf : ReadsKeep f) :
    Keeps (fun st => (f st.mount, st.len, st.dirty)) (entries : MapProgram w N σ _) := by
  refine (keeps_mount (keeps_iterNode hf _ _ _ _ _)).bind fun _ => ?_
  apply Keeps.foldlM
  intro out x
  apply Keeps.bind
  · exact keeps_readRecord (fun _ _ => keeps_originCall (hf _ _)) _
  · exact fun _ => Keeps.pure _

theorem keeps_getPath (path : CoordPath N) :
    KeepsStore g (getPath path : MapProgram w N σ (Option Bytes)) :=
  (keeps_onStrategy (keeps_locateFrom hg.reads _ _ _)).bind fun _ => (Keeps.pure _).ite
    ((hg.readRecord _).bind fun _ => Keeps.pure _)

omit hg [Origin σ] in
theorem keeps_bumpLen : KeepsStore g (bumpLen : MapProgram w N σ Unit) := by
  apply keeps_get_bind
  intro st
  refine ensures_ite (fun _ => ?_) fun _ => ensures_throw.mpr rfl
  rw [ensures_set]

theorem keeps_writeRecord (record : ℕ) (value : Bytes) :
    KeepsStore g (writeRecord record value : MapProgram w N σ Unit) :=
  (keeps_onMapOrigin (hg.write _ _)).bind fun _ => (Keeps.pure _).ite
    ((keeps_addU64 _ _).bind fun _ => keeps_onMapOrigin (hg.write _ _))

theorem keeps_putPath (path : CoordPath N) (value : Bytes) :
    KeepsStore g (putPath path value : MapProgram w N σ (Option Bytes)) := by
  refine keeps_maxValueLen.bind fun _ => (Keeps.throw _).ite ?_
  refine (keeps_onStrategy (keeps_locateOrCreateFrom hg _ _ _)).bind fun _ => Keeps.ite ?_ ?_
  · refine (hg.readRecord _).bind fun _ => (keeps_writeRecord hg _ _).bind fun _ => ?_
    refine Keeps.bind (keeps_modify ?_) fun _ => Keeps.pure _
    exact fun _ => rfl
  · refine (keeps_onStrategy (keeps_allocRecord hg)).bind fun _ => ?_
    refine (keeps_onStrategy (keeps_writeSlot hg _ _ _)).bind fun _ => keeps_bumpLen.bind fun _ => ?_
    refine (keeps_writeRecord hg _ _).bind fun _ => ?_
    refine Keeps.bind (keeps_modify ?_) fun _ => Keeps.pure _
    exact fun _ => rfl

theorem keeps_removePath (path : CoordPath N) :
    KeepsStore g (removePath path : MapProgram w N σ (Option Bytes)) := by
  refine (keeps_onStrategy (keeps_locateFrom hg.reads _ _ _)).bind fun _ => (Keeps.pure _).ite ?_
  refine (hg.readRecord _).bind fun _ => (keeps_onStrategy (keeps_freeRecord hg _)).bind fun _ => ?_
  refine (keeps_onStrategy (keeps_writeSlot hg _ _ _)).bind fun _ => ?_
  refine Keeps.bind (keeps_modify ?_) fun _ => Keeps.pure _
  exact fun _ => rfl

theorem keeps_clearChecked : KeepsStore g (clearChecked : MapProgram w N σ Unit) :=
  (keeps_onStrategy (keeps_reset hg)).bind fun _ => keeps_modify fun _ => rfl

end Chton.OriginFrames
