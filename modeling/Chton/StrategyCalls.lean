import Chton.ImageEdits

/-!
# Specifications of the strategy's calls on its origin

Each call is described by what it does to the strategy fields and to the bytes. A
failure of the origin leaves the bytes as they were before the failing call; the
failure postconditions say which calls had already taken effect.
-/

namespace Chton.StrategyCalls
open OutcomePrograms ByteRegions LittleEndianWords Origins TreeStrategyProgram LayoutImages ImageEdits
open StoreLayouts StoreLayouts.Layout

variable {N : ℕ} {σ α : Type} [ByteOrigin σ]

def image (m : Mount N σ) : Bytes := ByteOrigin.bytes m.origin

structure Same (m m' : Mount N σ) : Prop where
  strategy : m'.strategy = m.strategy
  image : image m' = image m

theorem Same.refl (m : Mount N σ) : Same m m := ⟨rfl, rfl⟩

theorem Same.trans {m m₁ m₂ : Mount N σ} (h : Same m m₁) (h' : Same m₁ m₂) : Same m m₂ :=
  ⟨h'.strategy.trans h.strategy, h'.image.trans h.image⟩

/-- An origin call failed, and up to then nothing had changed. -/
def Faulted (m : Mount N σ) : Stop BindingError → Mount N σ → Prop :=
  Refused fun _ m' => ByteOrigin.mayFail σ ∧ Same m m'

theorem Faulted.trans {m m₁ m₂ : Mount N σ} {e : Stop BindingError} (h : Same m m₁)
    (hf : Faulted m₁ e m₂) : Faulted m e m₂ :=
  hf.mono fun _ _ h' => ⟨h'.1, h.trans h'.2⟩

theorem refused_map {ε ε' τ : Type} {P : ε' → τ → Prop} {f : ε → ε'} {e : Stop ε} {t : τ} :
    Refused P (e.map f) t ↔ Refused (fun e t => P (f e) t) e t := by
  cases e <;> rfl

theorem onOrigin_spec {x : EStateM (Stop OriginError) σ α} {m : Mount N σ} {Q : α → σ → Prop}
    {P : σ → Prop} (h : Ensures x m.origin Q (Refused fun _ o => ByteOrigin.mayFail σ ∧ P o)) :
    Ensures (onOrigin x) m (fun a m' => m'.strategy = m.strategy ∧ Q a m'.origin)
      (Refused fun _ m' => ByteOrigin.mayFail σ ∧ m'.strategy = m.strategy ∧ P m'.origin) := by
  rw [onOrigin, ensures_focus]
  refine h.mono (fun _ _ hq => ⟨rfl, hq⟩) fun e o he => refused_map.mpr ?_
  exact he.imp fun _ hp => ⟨hp.1, rfl, hp.2⟩

theorem readOrigin_spec (m : Mount N σ) (offset n : ℕ) :
    Ensures (onOrigin (Origin.read offset n)) m
      (fun data m' => data = ((image m).drop offset).take n ∧ Same m m') (Faulted m) :=
  (onOrigin_spec (ByteOrigin.read_spec m.origin offset n)).mono
    (fun _ _ h => ⟨h.2.1, h.1, h.2.2⟩)
    fun _ _ h => h.mono fun _ _ h => ⟨h.1, h.2.1, h.2.2⟩

theorem writeOrigin_spec (m : Mount N σ) {offset : ℕ} {data : Bytes} (hdata : data ≠ [])
    (hend : offset + data.length < 2 ^ 64) :
    Ensures (onOrigin (Origin.write offset data)) m
      (fun _ m' => m'.strategy = m.strategy ∧ image m' = overlay (image m) offset data)
      (Faulted m) :=
  (onOrigin_spec (ByteOrigin.write_spec m.origin offset data hdata hend)).mono
    (fun _ _ h => h) fun _ _ h => h.mono fun _ _ h => ⟨h.1, h.2.1, h.2.2⟩

variable {m : Mount N σ} {E : Stop BindingError → Mount N σ → Prop} {node pos child : ℕ}
  {c : Coord} {v : ℕ}

theorem originLen_spec (m : Mount N σ) :
    Ensures originLen m (fun len m' => len = (image m).length ∧ m' = m) E := by
  rw [originLen, ensures_bind, ensures_get, ensures_pure]
  exact ⟨ByteOrigin.len_eq _, rfl⟩

omit [ByteOrigin σ] in
theorem slotPos_spec (m : Mount N σ) (h : node + nodeSpan < 2 ^ 64) :
    Ensures (slotPos node c) m (fun pos m' => pos = slotAddr node c ∧ m' = m) E := by
  have hle := slotAddr_le node c
  have hge := slotAddr_ge node c
  rw [slotPos]
  apply (addU64_spec (by rw [bitmapBytes_eq]; omega)).andThen
  rintro base m' ⟨rfl, rfl⟩
  exact addU64_spec (by rw [← slotAddr_eq]; omega)

omit [ByteOrigin σ] in
theorem bitmapBytePos_spec (m : Mount N σ) (h : node + nodeSpan < 2 ^ 64) :
    Ensures (bitmapBytePos node c) m (fun pos m' => pos = bitAddr node c ∧ m' = m) E := by
  have hlt := bitAddr_lt node c
  have hpos : bitAddr node c = node + c.val / 8 := rfl
  have : nodeSpan = 90773 := rfl
  exact addU64_spec (by omega)

theorem readSlot_spec (m : Mount N σ)
    (h : pos + 8 ≤ (image m).length ∨ (image m).length ≤ pos) :
    Ensures (readSlot pos) m (fun v m' => v = wordAt (image m) pos ∧ Same m m') (Faulted m) := by
  apply (originLen_spec m).andThen
  rintro _ m' ⟨rfl, rfl⟩
  refine ensures_ite (fun hge => ?_) fun hlt => ?_
  · exact ensures_pure.mpr ⟨(wordAt_of_length_le hge).symm, Same.refl _⟩
  · have hcut : pos + 8 ≤ (image m').length := by omega
    apply (readOrigin_spec m' pos slotBytes).andThen
    rintro _ m₁ ⟨rfl, hm⟩
    refine ensures_ite (fun hshort => ?_) fun _ => ensures_pure.mpr ⟨decode_drop_take hcut, hm⟩
    have : slotBytes = 8 := rfl
    rw [List.length_take, List.length_drop] at hshort
    omega

theorem checkChildInBounds_spec (m : Mount N σ) (h : child + nodeSpan ≤ (image m).length)
    (h64 : child + nodeSpan < 2 ^ 64) :
    Ensures (checkChildInBounds child) m (fun _ m' => m' = m) E := by
  rw [checkChildInBounds, if_pos h64]
  apply (originLen_spec m).andThen
  rintro _ m' ⟨rfl, rfl⟩
  rw [if_neg (by omega), ensures_pure]

theorem readBitmap_spec (m : Mount N σ)
    (h : node + bitmapBytes ≤ (image m).length ∨ (image m).length ≤ node) :
    Ensures (readBitmap node) m
      (fun bitmap m' => bitmap = window (image m) node bitmapBytes ∧ Same m m') (Faulted m) := by
  apply (originLen_spec m).andThen
  rintro _ m' ⟨rfl, rfl⟩
  refine ensures_ite (fun hge => ?_) fun hlt => ?_
  · exact ensures_pure.mpr ⟨(window_zero fun i h₁ _ => peek_of_le (by omega)).symm, Same.refl _⟩
  · have hcut : node + bitmapBytes ≤ (image m').length := by omega
    apply (readOrigin_spec m' node bitmapBytes).andThen
    rintro _ m₁ ⟨rfl, hm⟩
    refine ensures_ite (fun hshort => ?_) fun _ =>
      ensures_pure.mpr ⟨(window_eq_drop_take hcut).symm, hm⟩
    rw [List.length_take, List.length_drop] at hshort
    omega

theorem writeU64_spec (m : Mount N σ) (h : pos + 8 < 2 ^ 64) :
    Ensures (writeU64 pos v) m
      (fun _ m' => m'.strategy = m.strategy ∧ image m' = overlay (image m) pos (encode 8 v))
      (Faulted m) :=
  writeOrigin_spec m (List.ne_nil_of_length_pos (by simp)) (by simpa using h)

/-- The bitmap half of a slot write, on an origin that reaches past the bitmap byte. -/
theorem writeBitmapBit_spec (m : Mount N σ) (h : node + nodeSpan < 2 ^ 64)
    (hlen : bitAddr node c < (image m).length) :
    Ensures (writeBitmapBit node c v) m
      (fun _ m' => m'.strategy = m.strategy ∧ image m' = overlay (image m) (bitAddr node c)
        [if v = absent then peek (image m) (bitAddr node c) &&& ~~~(bitOf c)
          else peek (image m) (bitAddr node c) ||| bitOf c])
      (Faulted m) := by
  apply (bitmapBytePos_spec m h).andThen
  rintro _ m ⟨rfl, rfl⟩
  apply (readOrigin_spec m (bitAddr node c) 1).andThen
  rintro _ m₁ ⟨rfl, hm⟩
  have hbyte : ((image m).drop (bitAddr node c)).take 1 = [peek (image m) (bitAddr node c)] := by
    rw [← window_eq_drop_take (by omega)]
    rfl
  rw [hbyte]
  have hlt := bitAddr_lt node c
  have : nodeSpan = 90773 := rfl
  refine (writeOrigin_spec m₁ (List.cons_ne_nil _ _) ?_).mono ?_ fun _ _ h => Faulted.trans hm h
  · simp only [List.length_singleton]
    omega
  · rintro _ m₂ ⟨h₁, h₂⟩
    exact ⟨h₁.trans hm.strategy, by rw [h₂, hm.image]⟩

/-- A slot write that failed changed nothing or wrote the slot word without its bit. -/
theorem writeSlot_spec (m : Mount N σ) (h : node + nodeSpan < 2 ^ 64) :
    Ensures (writeSlot node c v) m
      (fun _ m' => m'.strategy = m.strategy ∧ image m' = setSlot (image m) node c v)
      (Refused fun _ m' => ByteOrigin.mayFail σ ∧ m'.strategy = m.strategy ∧
        (image m' = image m ∨ image m' = overlay (image m) (slotAddr node c) (encode 8 v))) := by
  have hle := slotAddr_le node c
  have hge := slotAddr_ge node c
  have hlt := bitAddr_lt node c
  rw [writeSlot]
  apply (slotPos_spec m h).andThen
  rintro _ m ⟨rfl, rfl⟩
  refine (writeU64_spec m (by omega)).bind ?_ fun _ _ h =>
    Refused.mono h fun _ _ h => ⟨h.1, h.2.strategy, .inl h.2.image⟩
  rintro _ m₁ ⟨hs₁, hi₁⟩
  refine (writeBitmapBit_spec m₁ h ?_).mono ?_ fun _ _ h =>
    Refused.mono h fun _ _ h => ⟨h.1, h.2.strategy.trans hs₁, .inr (h.2.image.trans hi₁)⟩
  · rw [hi₁, length_overlay, length_encode]
    omega
  · rintro _ m₂ ⟨hs₂, hi₂⟩
    exact ⟨hs₂.trans hs₁, by rw [hi₂, hi₁]; rfl⟩

omit [ByteOrigin σ] in
theorem checkedBump_ok (m : Mount N σ) {size : ℕ} (h : m.strategy.bump + size < 2 ^ 64) :
    Ensures (checkedBump size) m
      (fun start m' => start = m.strategy.bump ∧
        m' = { m with strategy := { m.strategy with bump := m.strategy.bump + size } }) E := by
  rw [checkedBump, ensures_bind, ensures_get, if_pos h, ensures_bind, ensures_set, ensures_pure]
  exact ⟨rfl, rfl⟩

omit [ByteOrigin σ] in
theorem checkedBump_full (m : Mount N σ) {size : ℕ} (h : ¬m.strategy.bump + size < 2 ^ 64)
    {Q : ℕ → Mount N σ → Prop} :
    Ensures (checkedBump size) m Q
      (fun e m' => e = .err (.origin (.outOfBounds m.strategy.bump (2 ^ 64 - 1))) ∧ m' = m) := by
  rw [checkedBump, ensures_bind, ensures_get, if_neg h, ensures_throw]
  exact ⟨rfl, rfl⟩

end Chton.StrategyCalls
