import Chton.TreeDescents

/-!
# Specifications of the record calls

The allocator takes and returns record slots as the layout does, and the map reads and
writes the length prefix and the payload of a record. The lengths of the map are taken
at a `usize` of 64 bits.
-/

namespace Chton.RecordCalls
open OutcomePrograms ByteRegions LittleEndianWords Origins TreeStrategyProgram CoordMapProgram
open StoreLayouts StoreLayouts.Layout LayoutImages ImageEdits StrategyCalls StoreRepresentations

variable {N : ℕ} {σ α : Type} [ByteOrigin σ]
variable {m : Mount N σ} {L A : Layout} {q : List Coord} {c : Coord} {r : ℕ} {v : Bytes}

theorem free_ne_zero (h : L.Valid N) {a : ℕ} (ha : a ∈ L.free) : a ≠ 0 := by
  have := h.free_lower ha
  rw [rootEnd_eq] at this
  omega

theorem allocRecord_spec (h : Allocated m L) :
    Ensures allocRecord m
      (fun r m' => ∃ A, L.takeRecord = some (r, A) ∧ Tracks m'.strategy A ∧ image m' = image m)
      (fun e m' => L.takeRecord = none ∧ e = L.areaFull ∧ m' = m ∨ Faulted m e m') := by
  rw [allocRecord, ensures_bind, ensures_get, h.fields.freeHead]
  cases hfree : L.free with
  | nil =>
    rw [List.headD_nil, if_neg (by simp), h.fields.slot, takeRecord_nil hfree]
    by_cases hfit : L.bump + L.slot < 2 ^ 64
    · refine (checkedBump_ok m (by rwa [h.fields.bump])).mono ?_ fun _ _ h => h
      rintro _ m' ⟨rfl, rfl⟩
      refine ⟨{ L with bump := L.bump + L.slot }, by rw [if_pos hfit, h.fields.bump],
        ⟨by rw [h.fields.bump], h.fields.slot, h.fields.freeHead, h.fields.nodeSize⟩, rfl⟩
    · refine (checkedBump_full m (by rwa [h.fields.bump])).mono (fun _ _ h => h) ?_
      rintro e m' ⟨he, rfl⟩
      exact .inl ⟨by rw [if_neg hfit], by rw [he, areaFull, h.fields.bump], rfl⟩
  | cons a rest =>
    have hmem : a ∈ L.free := by simp [hfree]
    have hchain := h.chain
    rw [hfree] at hchain
    obtain ⟨hroom, hword, -⟩ := hchain
    rw [List.headD_cons, if_pos (free_ne_zero h.valid hmem)]
    apply (originLen_spec m).andThen
    rintro _ m ⟨rfl, rfl⟩
    rw [if_neg (by omega)]
    refine (readSlot_spec m (.inl hroom)).bind ?_ fun _ _ hf => .inr hf
    rintro next m₁ ⟨hnext, hm⟩
    rw [hnext, hword, ensures_bind, ensures_modify, ensures_pure, hm.strategy]
    refine ⟨{ L with free := rest }, takeRecord_cons hfree, ⟨h.fields.bump, h.fields.slot, rfl,
      h.fields.nodeSize⟩, hm.image⟩

/-- The write of `free_record`; the head of the list moves only after it. -/
theorem writeFree_spec (m : Mount N σ) (h : r + 8 < 2 ^ 64) :
    Ensures (writeU64 r m.strategy.freeHead) m
      (fun _ m' => m'.strategy = m.strategy ∧
        image m' = overlay (image m) r (encode 8 m.strategy.freeHead)) (Faulted m) :=
  writeU64_spec m h

variable {st : CoordMapStore 64 N σ}

/-- Nothing a caller of the map can observe has changed. -/
structure SameStore (st st' : CoordMapStore 64 N σ) : Prop where
  mount : Same st.mount st'.mount
  len : st'.len = st.len
  dirty : st'.dirty = st.dirty

theorem SameStore.refl (st : CoordMapStore 64 N σ) : SameStore st st := ⟨Same.refl _, rfl, rfl⟩

theorem SameStore.trans {st st₁ st₂ : CoordMapStore 64 N σ} (h : SameStore st st₁)
    (h' : SameStore st₁ st₂) : SameStore st st₂ :=
  ⟨h.mount.trans h'.mount, h'.len.trans h.len, h'.dirty.trans h.dirty⟩

def FaultedStore (st : CoordMapStore 64 N σ) : Stop MapError → CoordMapStore 64 N σ → Prop :=
  Refused fun _ st' => ByteOrigin.mayFail σ ∧ SameStore st st'

theorem FaultedStore.trans {st st₁ st₂ : CoordMapStore 64 N σ} {e : Stop MapError}
    (h : SameStore st st₁) (hf : FaultedStore st₁ e st₂) : FaultedStore st e st₂ :=
  hf.mono fun _ _ h' => ⟨h'.1, h.trans h'.2⟩

omit [ByteOrigin σ] in
theorem onStrategy_spec {w : ℕ} {st : CoordMapStore w N σ} {x : BindingProgram N σ α} {Q : α → Mount N σ → Prop}
    {E : Stop BindingError → Mount N σ → Prop} (h : Ensures x st.mount Q E) :
    Ensures (onStrategy x) st
      (fun a st' => st' = { st with mount := st'.mount } ∧ Q a st'.mount)
      (fun e st' => st' = { st with mount := st'.mount } ∧
        ∃ e₀, e = e₀.map .binding ∧ E e₀ st'.mount) := by
  rw [onStrategy, ensures_focus]
  exact h.mono (fun _ _ hq => ⟨rfl, hq⟩) fun e _ he => ⟨rfl, e, rfl, he⟩

theorem faultedStore_of_faulted {st' : CoordMapStore 64 N σ} {e : Stop BindingError}
    (hst : st' = { st with mount := st'.mount }) (hf : Faulted st.mount e st'.mount) :
    FaultedStore st (e.map .binding) st' := by
  refine refused_map.mpr (hf.imp fun _ h => ⟨h.1, h.2, ?_, ?_⟩) <;> rw [hst]

/-- A strategy call that only reads. -/
theorem onStrategy_read {x : BindingProgram N σ α} {Q : α → Prop}
    (h : Ensures x st.mount (fun a m' => Q a ∧ Same st.mount m') (Faulted st.mount)) :
    Ensures (onStrategy x) st (fun a st' => Q a ∧ SameStore st st') (FaultedStore st) := by
  refine (onStrategy_spec h).mono ?_ ?_
  · rintro a st' ⟨hst, hq, hm⟩
    exact ⟨hq, hm, by rw [hst], by rw [hst]⟩
  · rintro _ st' ⟨hst, e, rfl, hf⟩
    exact faultedStore_of_faulted hst hf

theorem onMapOrigin_spec {x : EStateM (Stop OriginError) σ α} {Q : α → σ → Prop} {P : σ → Prop}
    (h : Ensures x st.mount.origin Q (Refused fun _ o => ByteOrigin.mayFail σ ∧ P o)) :
    Ensures (onMapOrigin x) st
      (fun a st' => st' = { st with mount := ⟨st.mount.strategy, st'.mount.origin⟩ } ∧
        Q a st'.mount.origin)
      (Refused fun _ st' => ByteOrigin.mayFail σ ∧
        st' = { st with mount := ⟨st.mount.strategy, st'.mount.origin⟩ } ∧ P st'.mount.origin) := by
  rw [onMapOrigin, ensures_focus]
  refine h.mono (fun _ _ hq => ⟨rfl, hq⟩) fun e o he => refused_map.mpr ?_
  exact he.imp fun _ hp => ⟨hp.1, rfl, hp.2⟩

theorem mapRead_spec (st : CoordMapStore 64 N σ) (offset n : ℕ) :
    Ensures (onMapOrigin (Origin.read offset n)) st
      (fun data st' => data = ((image st.mount).drop offset).take n ∧ SameStore st st')
      (FaultedStore st) := by
  refine (onMapOrigin_spec (ByteOrigin.read_spec st.mount.origin offset n)).mono ?_ ?_
  · rintro data st' ⟨hst, hdata, hb⟩
    exact ⟨hdata, ⟨by rw [hst], hb⟩, by rw [hst], by rw [hst]⟩
  · intro e st' hf
    exact hf.mono fun _ st' ⟨hfail, hst, hb⟩ => ⟨hfail, ⟨by rw [hst], hb⟩, by rw [hst], by rw [hst]⟩

structure Written (st st' : CoordMapStore 64 N σ) (b : Bytes) : Prop where
  strategy : st'.mount.strategy = st.mount.strategy
  image : image st'.mount = b
  len : st'.len = st.len
  dirty : st'.dirty = st.dirty

theorem mapWrite_spec (st : CoordMapStore 64 N σ) {offset : ℕ} {data : Bytes} (hdata : data ≠ [])
    (hend : offset + data.length < 2 ^ 64) :
    Ensures (onMapOrigin (Origin.write offset data)) st
      (fun _ st' => Written st st' (overlay (image st.mount) offset data)) (FaultedStore st) := by
  refine (onMapOrigin_spec (ByteOrigin.write_spec st.mount.origin offset data hdata hend)).mono ?_ ?_
  · rintro _ st' ⟨hst, hb⟩
    exact ⟨by rw [hst], hb, by rw [hst], by rw [hst]⟩
  · intro e st' hf
    exact hf.mono fun _ st' ⟨hfail, hst, hb⟩ => ⟨hfail, ⟨by rw [hst], hb⟩, by rw [hst], by rw [hst]⟩

omit [ByteOrigin σ] in
theorem maxValueLen_spec {s : ℕ} (hslot : st.mount.strategy.recordSlotSize = s) (h8 : 8 ≤ s)
    (h64 : s < 2 ^ 64) {E : Stop MapError → CoordMapStore 64 N σ → Prop} :
    Ensures (maxValueLen) st (fun n st' => n = s - lengthBytes ∧ st' = st) E := by
  have hlength : lengthBytes = 8 := rfl
  have hsize : asUsize 64 st.recordSlotSize = s := by
    rw [CoordMapStore.recordSlotSize, hslot, asUsize, Nat.mod_eq_of_lt h64]
  rw [maxValueLen, ensures_bind, ensures_get, hsize, if_neg (by omega), ensures_pure]
  exact ⟨rfl, rfl⟩

theorem readRecord_spec {s : ℕ} (hslot : st.mount.strategy.recordSlotSize = s) (h64 : s < 2 ^ 64)
    (hrec : RecordAt (image st.mount) r v) (hfit : v.length + 8 ≤ s) (hsized : v.length < 2 ^ 63)
    (hend : r + 8 < 2 ^ 64) :
    Ensures (readRecord r) st (fun a st' => a = v ∧ SameStore st st') (FaultedStore st) := by
  obtain ⟨hroom, hword, hval⟩ := hrec
  have hlength : lengthBytes = 8 := rfl
  rw [readRecord]
  apply (mapRead_spec st r lengthBytes).andThen
  rintro _ st₁ ⟨rfl, hst₁⟩
  have hlen : (((image st.mount).drop r).take lengthBytes).length = 8 := by
    rw [List.length_take, List.length_drop]
    omega
  have hv : asUsize 64 (decode (((image st.mount).drop r).take lengthBytes)) = v.length := by
    rw [decode_drop_take (by omega), hword, asUsize, Nat.mod_eq_of_lt (by omega)]
  rw [hlen, if_neg (by omega), hv]
  apply (maxValueLen_spec ((hst₁.mount.strategy ▸ hslot)) (by omega) h64).andThen
  rintro maxLen st₁ ⟨hmax, rfl⟩
  rw [if_neg (by omega), vecZeroed, if_pos hsized, ensures_bind, ensures_pure]
  apply (addU64_spec hend).andThen
  rintro payload st₁ ⟨hpayload, rfl⟩
  subst hpayload
  refine (mapRead_spec st₁ (r + lengthBytes) v.length).bind ?_ fun _ _ h => h.trans hst₁
  rintro _ st₂ ⟨rfl, hst₂⟩
  have hdata : ((image st₁.mount).drop (r + lengthBytes)).take v.length = v := by
    rw [hst₁.mount.image, ← window_eq_drop_take (by omega)]
    exact hval
  rw [hdata, if_neg (by omega), ensures_pure]
  exact ⟨rfl, hst₁.trans hst₂⟩

/-- The write of the length prefix; from here on the old value is gone. -/
theorem writeLength_spec (st : CoordMapStore 64 N σ) (v : Bytes) (hend : r + 8 < 2 ^ 64) :
    Ensures (onMapOrigin (Origin.write r (encode 8 v.length))) st
      (fun _ st' => Written st st' (overlay (image st.mount) r (encode 8 v.length)))
      (FaultedStore st) :=
  mapWrite_spec st (List.ne_nil_of_length_pos (by simp)) (by simpa using hend)

/-- `write_record` after its first write. -/
def writePayload (record : ℕ) (value : Bytes) : MapProgram 64 N σ Unit :=
  if value = [] then pure () else do
  let payload ← addU64 record lengthBytes
  onMapOrigin (Origin.write payload value)

theorem writeRecord_eq (r : ℕ) (v : Bytes) :
    (writeRecord r v : MapProgram 64 N σ Unit) =
      (onMapOrigin (Origin.write r (encode 8 v.length)) >>= fun _ => writePayload r v) := rfl

theorem writePayload_spec (st : CoordMapStore 64 N σ) (v : Bytes) (hend : r + 8 + v.length < 2 ^ 64) :
    Ensures (writePayload r v) st
      (fun _ st' => Written st st'
        (if v = [] then image st.mount else overlay (image st.mount) (r + 8) v))
      (FaultedStore st) := by
  rw [writePayload]
  refine ensures_ite (fun hv => ?_) fun hv => ?_
  · rw [if_pos hv, ensures_pure]
    exact ⟨rfl, rfl, rfl, rfl⟩
  · have hlength : lengthBytes = 8 := rfl
    rw [if_neg hv]
    apply (addU64_spec (by omega)).andThen
    rintro payload st ⟨hpayload, rfl⟩
    subst hpayload
    exact mapWrite_spec st hv hend

end Chton.RecordCalls
