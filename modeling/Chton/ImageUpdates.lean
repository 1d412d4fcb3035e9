import Chton.ImageReads

/-!
# Updating arbitrary images

`put_path` and `remove_path` over arbitrary bytes on a 64-bit target. A new node is zeroed
and linked in the image as it then is, so a hostile bump pointer may put a node over one
that the descent came through; the descent below therefore carries the image with it. It also
carries the capacity of the vector, which at least doubles whenever a write ends beyond it.
-/

namespace Chton.ImageUpdates
open OutcomePrograms ByteRegions LittleEndianWords Origins TreeStrategyProgram CoordMapProgram
open StoreLayouts LayoutImages StrategyCalls RecordCalls MemoryOrigins ImageReads GrowingVectors

variable {N cap : ℕ} {b : Bytes}

/-- Where the descent of `locate_or_create` ends: a check or the end of the address space
stops it, a new node takes the vector too far, or it reaches a leaf slot. -/
inductive Descent where
  | stopped
  | exhausted
  | reached (image : Bytes) (cap bump node : ℕ) (index : Coord) (value : ℕ)
  deriving DecidableEq

abbrev slotCap (cap node : ℕ) (c : Coord) : ℕ := grow 1 cap (slotAddr node c + slotBytes)

def descend (b : Bytes) (cap bump node : ℕ) : List Coord → Descent
  | [] => .stopped
  | c :: rest =>
    match slotAt b (slotAddr node c) with
    | none => .stopped
    | some value =>
      if rest = [] then .reached b cap bump node c value else
      if value = absent then
        if 2 ^ 64 ≤ bump + nodeSpan then .stopped else
        if 2 ^ 63 ≤ grow 1 cap (bump + nodeSpan) then .exhausted else
        descend (setSlot (overlay b bump (List.replicate nodeSpan 0)) node c bump)
          (slotCap (grow 1 cap (bump + nodeSpan)) node c) (bump + nodeSpan) bump rest
      else if value + nodeSpan ≤ b.length then descend b cap bump value rest else .stopped

/-- The record that `alloc_record` returns, if it returns one. -/
def recordFor (b : Bytes) (bump freeHead slot : ℕ) : Option ℕ :=
  if freeHead ≠ absent then if freeHead + slotBytes ≤ b.length then some freeHead else none else
  if bump + slot < 2 ^ 64 then some bump else none

/-- The two writes of a record take the vector too far. -/
def WriteOverruns (cap record : ℕ) (v : Bytes) : Prop :=
  2 ^ 63 ≤ grow 1 (grow 1 cap (record + lengthBytes)) (record + lengthBytes + v.length)

/-- `put_path` overruns a bound at the end of its descent. Over a record that is the length
of a vector; over an empty slot it may also be the entry count. -/
def OverrunsAt (f : TreeStrategy N) (v : Bytes) : Descent → Prop
  | .stopped => False
  | .exhausted => True
  | .reached image cap bump node index r =>
    if r ≠ 0 then
      Oversized 64 image f.recordSlotSize r ∨
        Accepts 64 image f.recordSlotSize r ∧ WriteOverruns cap r v
    else ∃ record, recordFor image bump f.freeHead f.recordSlotSize = some record ∧
      (2 ^ 64 ≤ f.recordCount + 1 ∨ WriteOverruns (slotCap cap node index) record v)

def PutOverruns (b : Bytes) (cap : ℕ) (f : TreeStrategy N) (p : CoordPath N) (v : Bytes) : Prop :=
  v.length + 8 ≤ f.recordSlotSize ∧ OverrunsAt f v (descend b cap f.bump rootOffset p.coords)

variable {m : Mount N (GrowingOrigin 64)} {st : CoordMapStore 64 N (GrowingOrigin 64)}
  {r t node : ℕ} {c : Coord} {data v : Bytes}

abbrev capOf (m : Mount N (GrowingOrigin 64)) : ℕ := m.origin.capacity

theorem data_le (m : Mount N (GrowingOrigin 64)) : (dataOf m).length ≤ capOf m := m.origin.fits

theorem cap_lt (m : Mount N (GrowingOrigin 64)) : capOf m < 2 ^ 63 := m.origin.bounded

theorem data_lt (m : Mount N (GrowingOrigin 64)) : (dataOf m).length < 2 ^ 63 :=
  (data_le m).trans_lt (cap_lt m)

theorem growingWrite_exact (o : GrowingOrigin 64) (hend : t + data.length < 2 ^ 64) :
    Ensures (Origin.write t data) o
      (fun _ o' => o'.data = overlay o.data t data ∧
        o'.capacity = grow 1 o.capacity (t + data.length))
      (EndsAs False (2 ^ 63 ≤ grow 1 o.capacity (t + data.length))) := by
  apply (growingWrite_spec o hend).mono
  · exact fun _ _ h => h
  · rintro _ _ ⟨rfl, hfull⟩
    exact hfull

theorem storeOrigin_updates (m : Mount N (GrowingOrigin 64)) (hend : t + data.length < 2 ^ 64) :
    Ensures (onOrigin (Origin.write t data)) m
      (fun _ m' => m'.strategy = m.strategy ∧ dataOf m' = overlay (dataOf m) t data ∧
        capOf m' = grow 1 (capOf m) (t + data.length))
      (EndsAs False (2 ^ 63 ≤ grow 1 (capOf m) (t + data.length))) := by
  rw [onOrigin, ensures_focus]
  apply (growingWrite_exact m.origin hend).mono
  · exact fun _ o ho => ⟨rfl, ho⟩
  · intro stop o hstop
    cases stop with
    | err e => exact hstop
    | panic cause => exact hstop

/-- A node that fits the capacity, or the root, which every vector can hold. -/
def Held (cap node : ℕ) : Prop := node + nodeSpan ≤ max rootEnd cap

theorem Held.mono {cap' : ℕ} (h : Held cap node) (hcap : cap ≤ cap') : Held cap' node :=
  h.trans (max_le_max_left _ hcap)

theorem held_root (cap : ℕ) : Held cap rootOffset := le_max_left _ _

/-- Growing for a part of such a node is no matter. -/
theorem Held.grow_lt {n : ℕ} (h : Held cap node) (hcap : cap < 2 ^ 63) (hn : n ≤ node + nodeSpan) :
    grow 1 cap n < 2 ^ 63 := by
  have hroot : rootEnd = 90837 := rfl
  rcases le_max_iff.mp (hn.trans h) with hsmall | hwithin
  · exact GrowingVectors.grow_lt hcap (by omega) (by decide)
  · rwa [grow_of_le hwithin]

/-- A write into such a node is done. -/
theorem storeOrigin_fits (h : Held (capOf m) node) (hnode : node + nodeSpan < 2 ^ 64)
    (hend : t + data.length ≤ node + nodeSpan) {E : Stop BindingError → Mount N (GrowingOrigin 64) → Prop} :
    Ensures (onOrigin (Origin.write t data)) m
      (fun _ m' => m'.strategy = m.strategy ∧ dataOf m' = overlay (dataOf m) t data ∧
        capOf m' = grow 1 (capOf m) (t + data.length)) E := by
  apply (storeOrigin_updates m (hend.trans_lt hnode)).mono
  · exact fun _ _ hm' => hm'
  · intro stop m' hstop
    cases stop with
    | err e => exact hstop.elim
    | panic cause =>
      have hstop : 2 ^ 63 ≤ grow 1 (capOf m) (t + data.length) := hstop
      exact absurd (h.grow_lt (cap_lt m) hend) (Nat.not_lt.mpr hstop)

theorem Held.lt (h : Held cap node) (hcap : cap < 2 ^ 63) : node + nodeSpan < 2 ^ 63 :=
  h.trans_lt (max_lt (by decide) hcap)

theorem writeSlot_updates (hnode : Held (capOf m) node)
    {E : Stop BindingError → Mount N (GrowingOrigin 64) → Prop} :
    Ensures (writeSlot node c r) m
      (fun _ m' => m'.strategy = m.strategy ∧ dataOf m' = setSlot (dataOf m) node c r ∧
        capOf m' = slotCap (capOf m) node c) E := by
  have hle := slotAddr_le node c
  have hge := slotAddr_ge node c
  have hlt := bitAddr_lt node c
  have hspan : nodeSpan = 90773 := rfl
  have h8 : slotBytes = 8 := rfl
  have hend := hnode.lt (cap_lt m)
  rw [writeSlot]
  apply (slotPos_spec m (by omega)).andThen
  intro pos m' hpos
  obtain ⟨rfl, rfl⟩ := hpos
  apply (storeOrigin_fits hnode (by omega) (by rw [length_encode]; omega)).andThen
  intro _ m₁ hm₁
  obtain ⟨hs₁, hd₁, hc₁⟩ := hm₁
  rw [length_encode] at hc₁
  have hroom : bitAddr node c < (dataOf m₁).length := by
    rw [hd₁, length_overlay, length_encode]
    omega
  rw [writeBitmapBit]
  apply (bitmapBytePos_spec m₁ (by omega)).andThen
  intro bytePos m₂ hbytePos
  obtain ⟨rfl, rfl⟩ := hbytePos
  apply (memoryData_spec m₂ (by omega) 1).andThen
  intro buf m₃ hbuf
  obtain ⟨rfl, rfl⟩ := hbuf
  have hbyte : ((dataOf m₃).drop (bitAddr node c)).take 1 =
      [peek (dataOf m₃) (bitAddr node c)] := by
    rw [← window_eq_drop_take (by omega)]
    rfl
  rw [hbyte]
  have hheld : Held (capOf m₃) node := hnode.mono (hc₁ ▸ cap_le_grow _ _ _)
  apply (storeOrigin_fits hheld (by omega) (by rw [List.length_singleton]; omega)).mono
  · intro _ m₄ hm₄
    obtain ⟨hs₄, hd₄, hc₄⟩ := hm₄
    have hwithin : bitAddr node c + 1 ≤ capOf m₃ := Nat.le_trans hroom (data_le m₃)
    rw [List.length_singleton, grow_of_le hwithin, hc₁] at hc₄
    refine ⟨hs₄.trans hs₁, ?_, hc₄⟩
    rw [hd₄, hd₁]
    rfl
  · exact fun _ _ hf => hf

theorem allocNode_updates (m : Mount N (GrowingOrigin 64)) (hsize : m.strategy.nodeSize = nodeSpan) :
    Ensures allocNode m
      (fun node m' => node = m.strategy.bump ∧ m.strategy.bump + nodeSpan < 2 ^ 64 ∧
        m'.strategy = { m.strategy with bump := m.strategy.bump + nodeSpan } ∧
        dataOf m' = overlay (dataOf m) m.strategy.bump (List.replicate nodeSpan 0) ∧
        capOf m' = grow 1 (capOf m) (m.strategy.bump + nodeSpan))
      (EndsAs (2 ^ 64 ≤ m.strategy.bump + nodeSpan)
        (m.strategy.bump + nodeSpan < 2 ^ 64 ∧
          2 ^ 63 ≤ grow 1 (capOf m) (m.strategy.bump + nodeSpan))) := by
  rw [allocNode, ensures_bind, ensures_get, hsize]
  by_cases hfit : m.strategy.bump + nodeSpan < 2 ^ 64
  · apply (checkedBump_ok m hfit).andThen
    intro start m' hstart
    obtain ⟨rfl, hm'⟩ := hstart
    have hcap : capOf m' = capOf m := by rw [hm']
    have hend : m.strategy.bump + (List.replicate nodeSpan (0 : UInt8)).length < 2 ^ 64 := by
      rwa [List.length_replicate]
    have hstore := storeOrigin_updates m' hend
    rw [List.length_replicate, hcap] at hstore
    apply hstore.bind
    · intro _ m₁ hm₁
      obtain ⟨hs, hd, hc⟩ := hm₁
      rw [hm'] at hs hd
      exact ensures_pure.mpr ⟨rfl, hfit, hs, hd, hc⟩
    · intro stop m₁ hstop
      cases stop with
      | err e => exact hstop.elim
      | panic cause => exact ⟨hfit, hstop⟩
  · apply (checkedBump_full m hfit).bind (Q := fun _ _ => False)
    · exact fun _ _ hf => hf.elim
    · intro stop m' hstop
      rw [hstop.1]
      exact Nat.le_of_not_lt hfit

/-- A new node that is linked into one that fits: what is left for the rest of a call. -/
theorem newNode_updates {α : Type} {k : ℕ → BindingProgram N (GrowingOrigin 64) α}
    {Q : α → Mount N (GrowingOrigin 64) → Prop}
    {E : Stop BindingError → Mount N (GrowingOrigin 64) → Prop}
    (hsize : m.strategy.nodeSize = nodeSpan) (hnode : Held (capOf m) node)
    (hfull : 2 ^ 64 ≤ m.strategy.bump + nodeSpan → ∀ e m', E (.err e) m')
    (hlarge : m.strategy.bump + nodeSpan < 2 ^ 64 →
      2 ^ 63 ≤ grow 1 (capOf m) (m.strategy.bump + nodeSpan) → ∀ cause m', E (.panic cause) m')
    (hk : m.strategy.bump + nodeSpan < 2 ^ 64 →
      grow 1 (capOf m) (m.strategy.bump + nodeSpan) < 2 ^ 63 → ∀ m',
      m'.strategy = { m.strategy with bump := m.strategy.bump + nodeSpan } →
      dataOf m' = setSlot (overlay (dataOf m) m.strategy.bump (List.replicate nodeSpan 0)) node c
        m.strategy.bump →
      capOf m' = slotCap (grow 1 (capOf m) (m.strategy.bump + nodeSpan)) node c →
      Held (capOf m') m.strategy.bump → Ensures (k m.strategy.bump) m' Q E) :
    Ensures (do
      let child ← allocNode
      writeSlot node c child
      k child) m Q E := by
  apply (allocNode_updates m hsize).bind
  · intro child m₁ hchild
    obtain ⟨rfl, hfit, hs₁, hd₁, hc₁⟩ := hchild
    have hroom := cap_lt m₁
    rw [hc₁] at hroom
    have hnode₁ : Held (capOf m₁) node := hnode.mono (hc₁ ▸ cap_le_grow _ _ _)
    apply (writeSlot_updates hnode₁).andThen
    intro _ m₂ hm₂
    obtain ⟨hs₂, hd₂, hc₂⟩ := hm₂
    rw [hd₁] at hd₂
    rw [hc₁] at hc₂
    have hwithin : m.strategy.bump + nodeSpan ≤ capOf m₂ := by
      rw [hc₂]
      exact (le_grow _ _ _).trans (cap_le_grow _ _ _)
    exact hk hfit hroom m₂ (hs₂.trans hs₁) hd₂ hc₂ (hwithin.trans (le_max_right _ _))
  · intro stop m₁ hstop
    cases stop with
    | err e => exact hfull hstop e m₁
    | panic cause => exact hlarge hstop.1 hstop.2 cause m₁

/-- The descent of `locate_or_create` follows the image, the capacity and the bump pointer. -/
theorem locateOrCreateFrom_updates (pathLen : ℕ) (rest : List Coord)
    (hsize : m.strategy.nodeSize = nodeSpan) (hnode : Held (capOf m) node) :
    Ensures (locateOrCreateFrom pathLen node rest) m
      (fun s m' => descend (dataOf m) (capOf m) m.strategy.bump node rest =
          .reached (dataOf m') (capOf m') m'.strategy.bump s.leafNode s.leafIndex s.recordOffset ∧
        m'.strategy = { m.strategy with bump := m'.strategy.bump } ∧
        Held (capOf m') s.leafNode ∧ s.recordOffset < 2 ^ 64)
      (EndsAs (descend (dataOf m) (capOf m) m.strategy.bump node rest = .stopped)
        (descend (dataOf m) (capOf m) m.strategy.bump node rest = .exhausted)) := by
  induction rest generalizing node m with
  | nil => exact ensures_throw.mpr rfl
  | cons c rest ih =>
    have hend := hnode.lt (cap_lt m)
    have hlen := data_lt m
    rw [locateOrCreateFrom, descend]
    apply (slotPos_spec m (by omega)).andThen
    intro pos m' hpos
    obtain ⟨rfl, rfl⟩ := hpos
    apply (readSlot_reads (by omega) (slotAddr node c)).bind
    · intro value m₁ hvalue
      obtain ⟨hvalue, rfl⟩ := hvalue
      rw [hvalue]
      dsimp only
      apply ensures_ite
      · intro hlast
        rw [if_pos hlast, ensures_pure]
        exact ⟨rfl, rfl, hnode, slotAt_lt hvalue⟩
      · intro hinner
        rw [if_neg hinner]
        apply ensures_ite
        · intro habsent
          rw [if_pos habsent]
          apply newNode_updates hsize hnode
          · exact fun hfull _ _ => if_pos hfull
          · intro hfit hlarge cause m₂
            change ite _ _ _ = _
            rw [if_neg (Nat.not_le.mpr hfit), if_pos hlarge]
          · intro hfit hroom m₂ hs hd hc hchild
            have hbump : m₂.strategy.bump = m₁.strategy.bump + nodeSpan := by rw [hs]
            rw [if_neg (Nat.not_le.mpr hfit), if_neg (Nat.not_le.mpr hroom), ← hd, ← hc, ← hbump]
            apply (ih (by rw [hs]; exact hsize) hchild).mono
            · intro s m₃ hs₃
              obtain ⟨hdesc, hstrategy, hbounds⟩ := hs₃
              refine ⟨hdesc, ?_, hbounds⟩
              rw [hstrategy, hs]
            · exact fun _ _ hf => hf
        · intro hlink
          rw [if_neg hlink]
          apply (checkChildInBounds_reads (by omega) value).bind
          · intro _ m₂ hchild
            obtain ⟨hchild, rfl⟩ := hchild
            rw [if_pos hchild]
            exact ih hsize ((hchild.trans (data_le m₂)).trans (le_max_right _ _))
          · intro stop m₂ hstop
            cases stop with
            | err e => exact if_neg (Nat.not_le.mpr hstop)
            | panic cause => exact hstop.elim
    · intro stop m₁ hstop
      cases stop with
      | err e =>
        have hnone : slotAt (dataOf m') (slotAddr node c) = none := hstop
        rw [hnone]
        rfl
      | panic cause => exact hstop.elim

theorem allocRecord_updates (hlen : (dataOf m).length < 2 ^ 64) :
    Ensures allocRecord m
      (fun r m' => recordFor (dataOf m) m.strategy.bump m.strategy.freeHead
        m.strategy.recordSlotSize = some r ∧ m'.origin = m.origin)
      (Refused fun _ _ => recordFor (dataOf m) m.strategy.bump m.strategy.freeHead
        m.strategy.recordSlotSize = none) := by
  have h8 : slotBytes = 8 := rfl
  rw [allocRecord, ensures_bind, ensures_get, recordFor]
  apply ensures_ite
  · intro hfree
    rw [if_pos hfree]
    apply (memoryLen_spec m).andThen
    intro len m' hm'
    obtain ⟨rfl, rfl⟩ := hm'
    apply ensures_ite
    · intro hbehind
      rw [ensures_throw, if_neg (by omega)]
      exact rfl
    · intro hbefore
      apply (readSlot_reads hlen m'.strategy.freeHead).bind
      · intro next m₁ hnext
        obtain ⟨hnext, rfl⟩ := hnext
        rw [slotAt, if_neg hbefore] at hnext
        split_ifs at hnext with hcut
        rw [ensures_bind, ensures_modify, ensures_pure, if_pos (Nat.le_of_not_lt hcut)]
        exact ⟨rfl, rfl⟩
      · intro stop m₁ hstop
        refine hstop.mono fun _ _ hnone => ?_
        rw [slotAt, if_neg hbefore] at hnone
        split_ifs at hnone with hcut
        rw [if_neg (Nat.not_le.mpr hcut)]
  · intro hnone
    rw [if_neg hnone]
    by_cases hfit : m.strategy.bump + m.strategy.recordSlotSize < 2 ^ 64
    · rw [if_pos hfit]
      apply (checkedBump_ok m hfit).mono
      · intro start m' hstart
        obtain ⟨rfl, rfl⟩ := hstart
        exact ⟨rfl, rfl⟩
      · exact fun _ _ hf => hf
    · rw [if_neg hfit]
      apply (checkedBump_full m hfit (Q := fun _ _ => False)).mono
      · exact fun _ _ hf => hf.elim
      · intro stop m' hstop
        rw [hstop.1]
        exact rfl

theorem recordFor_end {bump free slot : ℕ} (h : recordFor b bump free slot = some r)
    (hlen : b.length < 2 ^ 63) (hv : v.length < 2 ^ 63) (hfit : v.length + 8 ≤ slot) :
    r + 8 + v.length < 2 ^ 64 := by
  have h8 : slotBytes = 8 := rfl
  rw [recordFor] at h
  split_ifs at h with hfree hroom hbump
  · rw [← Option.some.inj h]
    omega
  · rw [← Option.some.inj h]
    omega

theorem mapStore_updates (st : CoordMapStore 64 N (GrowingOrigin 64))
    (hend : t + data.length < 2 ^ 64) :
    Ensures (onMapOrigin (Origin.write t data)) st
      (fun _ st' => capOf st'.mount = grow 1 (capOf st.mount) (t + data.length))
      (EndsAs False (2 ^ 63 ≤ grow 1 (capOf st.mount) (t + data.length))) := by
  rw [onMapOrigin, ensures_focus]
  apply (growingWrite_exact st.mount.origin hend).mono
  · exact fun _ o ho => ho.2
  · intro stop o hstop
    cases stop with
    | err e => exact hstop
    | panic cause => exact hstop

theorem writeRecord_updates (hend : r + 8 + v.length < 2 ^ 64) :
    PanicsIff (writeRecord r v) st (WriteOverruns (capOf st.mount) r v) := by
  have h8 : lengthBytes = 8 := rfl
  rw [writeRecord, WriteOverruns]
  have hword : r + (encode 8 v.length).length < 2 ^ 64 := by
    rw [length_encode]
    omega
  have hprefix := mapStore_updates st hword
  rw [length_encode, ← h8] at hprefix
  apply hprefix.bind
  · intro _ st₁ hc₁
    have hbounded := cap_lt st₁.mount
    have hwithin : r + lengthBytes ≤ capOf st₁.mount := hc₁ ▸ le_grow _ _ _
    rw [← hc₁]
    apply ensures_ite
    · intro hempty
      rw [ensures_pure, hempty, List.length_nil, Nat.add_zero, grow_of_le hwithin]
      exact Nat.not_le.mpr hbounded
    · intro _
      apply (addU64_spec (by omega)).andThen
      intro payload st₂ hpayload
      obtain ⟨rfl, rfl⟩ := hpayload
      apply panicsIff_of (mapStore_updates st₂ (by omega))
      · intro _ st₃ hc₃
        rw [← hc₃]
        exact Nat.not_le.mpr (cap_lt st₃.mount)
      · exact fun hf => hf.elim
      · exact id
  · intro stop st₁ hstop
    cases stop with
    | err e => exact hstop.elim
    | panic cause =>
      have hstop : 2 ^ 63 ≤ grow 1 (capOf st.mount) (r + lengthBytes) := hstop
      exact hstop.trans (cap_le_grow _ _ _)

theorem overwrite_updates {s : ℕ} (hs : st.recordSlotSize = s) (hslot : 8 ≤ s ∧ s < 2 ^ 64)
    (hr : r < 2 ^ 64) (hv : v.length < 2 ^ 63) :
    PanicsIff (do
        let prev ← readRecord r
        writeRecord r v
        modify fun (st : CoordMapStore 64 N (GrowingOrigin 64)) => { st with dirty := true }
        pure (some prev)) st
      (Oversized 64 (dataOf st.mount) s r ∨
        Accepts 64 (dataOf st.mount) s r ∧ WriteOverruns (capOf st.mount) r v) := by
  have hlen := data_lt st.mount
  rw [← panics_iff_oversized hr hslot]
  apply (readRecord_reads (by omega) le_rfl hr hs).bind
  · intro prev st₁ hprev
    obtain ⟨-, haccepts, rfl⟩ := hprev
    have hroom := haccepts.header
    rw [asUsize_of_lt hr] at hroom
    have hpanics : ¬Panics 64 (dataOf st₁.mount) s r := fun h => h.not_accepts haccepts
    apply (writeRecord_updates (by omega : r + 8 + v.length < 2 ^ 64)).bind
    · intro _ st₂ hfit
      rw [ensures_bind, ensures_modify, ensures_pure]
      exact fun h => h.elim hpanics fun h => hfit h.2
    · intro stop st₂ hstop
      cases stop with
      | err e => exact fun h => h.elim hpanics fun h => hstop h.2
      | panic cause => exact .inr ⟨haccepts, hstop⟩
  · intro stop st₁ hstop
    cases stop with
    | err e => exact fun h => h.elim (fun h => h.not_refuses hstop) fun h => h.1.not_refuses hstop
    | panic cause => exact .inl hstop

theorem create_updates {f : TreeStrategy N} {slot : Slot}
    (hf : st.mount.strategy = { f with bump := st.mount.strategy.bump })
    (hcount : st.len = f.recordCount) (hnode : Held (capOf st.mount) slot.leafNode)
    (hv : v.length < 2 ^ 63) (hfit : v.length + 8 ≤ f.recordSlotSize) :
    PanicsIff (do
        let record ← onStrategy allocRecord
        onStrategy (writeLeaf slot record)
        bumpLen
        writeRecord record v
        modify fun (st : CoordMapStore 64 N (GrowingOrigin 64)) => { st with dirty := true }
        pure (none : Option Bytes)) st
      (∃ record, recordFor (dataOf st.mount) st.mount.strategy.bump f.freeHead f.recordSlotSize =
        some record ∧ (2 ^ 64 ≤ f.recordCount + 1 ∨
          WriteOverruns (slotCap (capOf st.mount) slot.leafNode slot.leafIndex) record v)) := by
  have hlen := data_lt st.mount
  have hfree : st.mount.strategy.freeHead = f.freeHead := by rw [hf]
  have hslot : st.mount.strategy.recordSlotSize = f.recordSlotSize := by rw [hf]
  have halloc := allocRecord_updates (m := st.mount) (by omega)
  rw [hfree, hslot] at halloc
  apply (onStrategy_spec halloc).bind
  · intro record st₁ hrecord
    obtain ⟨hst₁, hrecord, horigin⟩ := hrecord
    have hend := recordFor_end hrecord hlen hv hfit
    have hcap : capOf st₁.mount = capOf st.mount := by rw [capOf, horigin]
    have hcount₁ : st₁.len = f.recordCount := by rw [hst₁, hcount]
    have hiff : (∃ r, some record = some r ∧ (2 ^ 64 ≤ f.recordCount + 1 ∨
        WriteOverruns (slotCap (capOf st.mount) slot.leafNode slot.leafIndex) r v)) ↔
        2 ^ 64 ≤ f.recordCount + 1 ∨
          WriteOverruns (slotCap (capOf st.mount) slot.leafNode slot.leafIndex) record v := by
      simp
    rw [hrecord, hiff, ← hcap]
    apply (onStrategy_spec (writeSlot_updates (E := fun _ _ => False) (hcap ▸ hnode))).bind
    · intro _ st₂ hst₂
      obtain ⟨hst₂, -, -, hcap₂⟩ := hst₂
      have hcount₂ : st₂.len = f.recordCount := by rw [hst₂, hcount₁]
      rw [bumpLen, ensures_bind, ensures_bind, ensures_get, hcount₂, ← hcap₂]
      apply ensures_ite
      · intro hroom
        rw [ensures_set]
        have hwrite (st : CoordMapStore 64 N (GrowingOrigin 64)) :
            PanicsIff (writeRecord record v) st (WriteOverruns (capOf st.mount) record v) :=
          writeRecord_updates hend
        apply (hwrite { st₂ with len := f.recordCount + 1 }).bind
        · intro _ st₃ hshort
          rw [ensures_bind, ensures_modify, ensures_pure]
          exact fun h => h.elim (Nat.not_le.mpr hroom) hshort
        · intro stop st₃ hstop
          cases stop with
          | err e => exact fun h => h.elim (Nat.not_le.mpr hroom) hstop
          | panic cause => exact .inr hstop
      · intro hfull
        rw [ensures_throw]
        exact .inl (Nat.le_of_not_lt hfull)
    · intro stop st₂ hstop
      obtain ⟨-, e, -, hf⟩ := hstop
      exact hf.elim
  · intro stop st₁ hstop
    obtain ⟨-, e, rfl, he⟩ := hstop
    apply Refused.endsAs he
    intro hnone h
    obtain ⟨record, hrecord, -⟩ := h
    cases hnone.symm.trans hrecord

theorem putPath_updates {p : CoordPath N} {f : TreeStrategy N} (hf : st.mount.strategy = f)
    (hsize : f.nodeSize = nodeSpan) (hslot : 8 ≤ f.recordSlotSize ∧ f.recordSlotSize < 2 ^ 64)
    (hcount : st.len = f.recordCount) (hv : v.length < 2 ^ 63) :
    PanicsIff (putPath p v) st (PutOverruns (dataOf st.mount) (capOf st.mount) f p v) := by
  have h8 : lengthBytes = 8 := rfl
  rw [putPath]
  apply (maxValueLen_spec (congrArg TreeStrategy.recordSlotSize hf) hslot.1 hslot.2).andThen
  intro n st' hn
  obtain ⟨rfl, rfl⟩ := hn
  apply ensures_ite
  · intro hlarge
    rw [ensures_throw]
    exact fun h => absurd h.1 (by omega)
  · intro hfits
    have hdescent := locateOrCreateFrom_updates (m := st'.mount) N p.coords (by rw [hf]; exact hsize)
      (held_root _)
    rw [hf] at hdescent
    apply (onStrategy_spec hdescent).bind
    · intro slot st₁ hslot₁
      obtain ⟨hst₁, hdesc, hf₁, hnode, hr⟩ := hslot₁
      have hcount₁ : st₁.len = f.recordCount := by rw [hst₁, hcount]
      have hiff : PutOverruns (dataOf st'.mount) (capOf st'.mount) f p v ↔
          OverrunsAt f v (.reached (dataOf st₁.mount) (capOf st₁.mount) st₁.mount.strategy.bump
            slot.leafNode slot.leafIndex slot.recordOffset) := by
        rw [PutOverruns, hdesc]
        exact and_iff_right (by omega)
      rw [hiff, OverrunsAt]
      apply ensures_ite
      · intro hfound
        rw [if_pos hfound]
        apply overwrite_updates _ hslot hr hv
        rw [CoordMapStore.recordSlotSize, hf₁]
      · intro hempty
        rw [if_neg hempty]
        exact create_updates hf₁ hcount₁ hnode hv (by omega)
    · intro stop st₁ hstop
      obtain ⟨-, e, rfl, he⟩ := hstop
      cases e with
      | err e =>
        intro h
        have he : descend (dataOf st'.mount) (capOf st'.mount) f.bump rootOffset p.coords =
          .stopped := he
        rw [PutOverruns, he] at h
        exact h.2
      | panic cause =>
        have he : descend (dataOf st'.mount) (capOf st'.mount) f.bump rootOffset p.coords =
          .exhausted := he
        change PutOverruns _ _ _ _ _
        rw [PutOverruns, he]
        exact ⟨by omega, trivial⟩

/-- A free record is linked within the record. -/
theorem freeRecord_updates (hend : r + 8 ≤ (dataOf m).length)
    {E : Stop BindingError → Mount N (GrowingOrigin 64) → Prop} :
    Ensures (freeRecord r) m (fun _ m' => capOf m' = capOf m) E := by
  have hlen := data_lt m
  have hcap := data_le m
  rw [freeRecord, ensures_bind, ensures_get]
  apply (storeOrigin_updates m (by rw [length_encode]; omega)).bind
  · intro _ m₁ hm₁
    rw [ensures_modify]
    have hc := hm₁.2.2
    rw [length_encode, grow_of_le (hend.trans hcap)] at hc
    exact hc
  · intro stop m₁ hstop
    rw [length_encode, grow_of_le (hend.trans hcap)] at hstop
    cases stop with
    | err e => exact hstop.elim
    | panic cause => exact absurd (cap_lt m) (Nat.not_lt.mpr hstop)

theorem removePath_updates {p : CoordPath N} {s : ℕ} (hs : st.recordSlotSize = s) :
    PanicsIff (removePath p) st
      (∃ r, recordOf (dataOf st.mount) p = some r ∧ r ≠ 0 ∧ Panics 64 (dataOf st.mount) s r) := by
  have hlen := data_lt st.mount
  rw [removePath]
  apply (onStrategy_spec (locate_reads (by omega) le_rfl p)).bind
  · intro slot st₁ hslot
    obtain ⟨hst₁, hrecord, hleaf, hm⟩ := hslot
    rw [hm] at hst₁
    subst hst₁
    rw [hrecord]
    apply ensures_ite
    · intro habsent
      rw [ensures_pure]
      intro h
      obtain ⟨r, hr, hne, -⟩ := h
      exact hne ((Option.some.inj hr).symm.trans habsent)
    · intro hfound
      have hiff : (∃ r, some slot.recordOffset = some r ∧ r ≠ 0 ∧
          Panics 64 (dataOf st.mount) s r) ↔ Panics 64 (dataOf st.mount) s slot.recordOffset := by
        simp [hfound]
      rw [hiff]
      have hr := recordFrom_lt hrecord
      apply (readRecord_reads (by omega) le_rfl hr hs).bind
      · intro prev st₂ hprev
        obtain ⟨-, haccepts, rfl⟩ := hprev
        have hroom := haccepts.header
        rw [asUsize_of_lt hr] at hroom
        have hpanics : ¬Panics 64 (dataOf st₂.mount) s slot.recordOffset :=
          fun h => h.not_accepts haccepts
        have hheld : Held (capOf st₂.mount) slot.leafNode :=
          hleaf.trans (max_le_max_left _ (data_le st₂.mount))
        apply (onStrategy_spec (freeRecord_updates (E := fun _ _ => False) hroom)).bind
        · intro _ st₃ hst₃
          obtain ⟨-, hcap₃⟩ := hst₃
          have hheld₃ : Held (capOf st₃.mount) slot.leafNode := hcap₃ ▸ hheld
          apply (onStrategy_spec (writeSlot_updates (E := fun _ _ => False) hheld₃)).bind
          · intro _ st₄ _
            rw [ensures_bind, ensures_modify, ensures_pure]
            exact hpanics
          · intro stop st₄ hstop
            obtain ⟨-, e, -, hf⟩ := hstop
            exact hf.elim
        · intro stop st₃ hstop
          obtain ⟨-, e, -, hf⟩ := hstop
          exact hf.elim
      · intro stop st₂ hstop
        cases stop with
        | err e => exact fun h => h.not_refuses hstop
        | panic cause => exact hstop
  · intro stop st₁ hstop
    obtain ⟨-, e, rfl, he⟩ := hstop
    apply Refused.endsAs he
    intro hnone h
    obtain ⟨r, hr, -⟩ := h
    cases hnone.symm.trans hr

end Chton.ImageUpdates
