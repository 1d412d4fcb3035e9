import Chton.CallRuns
import Chton.StoreReopening
import Chton.MemoryOrigins

/-!
# Reading arbitrary images

What `load`, `locate` and `read_record` find over arbitrary bytes, as functions of the bytes.
The tree only reads behind a comparison with the length, so it sees the same bytes for every
width of `usize`; a record offset is cast before it is compared with anything.
-/

namespace Chton.ImageReads
open OutcomePrograms CallRuns ByteRegions LittleEndianWords Origins TreeStrategyProgram
open CoordMapProgram StoreLayouts LayoutImages StrategyCalls RecordCalls HeaderCalls MapUpdates
open StoreReopening MemoryOrigins

variable {w N d r s t : ℕ} {b : Bytes}

section
variable {σ : Type} [Origin σ]

variable (w) in
/-- The outcome of `load` followed by `get_path` on a `w`-bit target. -/
def readBack (o : σ) (d : ℕ) (p : CoordPath N) : Except (Stop MapError) (Option Bytes) := do
  let st ← (CoordMapStore.load o d : Except (Stop MapError) (CoordMapStore w N σ))
  (answer (getPath p) st).1

abbrev Erred {ε ρ : Type} : Stop ε → ρ → Prop := Refused fun _ _ => True

end

/-- The slot at an offset: absent behind the end, unreadable if the end cuts it. -/
def slotAt (b : Bytes) (pos : ℕ) : Option ℕ :=
  if b.length ≤ pos then some absent else
  if b.length < pos + slotBytes then none else some (wordAt b pos)

/-- The record offset that a descent from `node` ends at, if no check stops it. -/
def recordFrom (b : Bytes) (node : ℕ) : List Coord → Option ℕ
  | [] => none
  | c :: rest => do
    let value ← slotAt b (slotAddr node c)
    if rest = [] ∨ value = absent then some value else
    if value + nodeSpan ≤ b.length then recordFrom b value rest else none

def recordOf (b : Bytes) (p : CoordPath N) : Option ℕ := recordFrom b rootOffset p.coords

instance : Decidable (NoHeader b) := inferInstanceAs (Decidable (_ ∨ _))

/-- The fields that `load` starts from, if it accepts the bytes. -/
def loadedFields (N : ℕ) (b : Bytes) (d : ℕ) : Option (TreeStrategy N) :=
  let header := b.take headerLen
  if NoHeader b then some (freshFields N d) else
  if headerField header 4 6 ≠ N ∨ headerField header 24 32 ≠ nodeSpan then none else
  if headerField header 32 40 < slotBytes then none else
  if headerField header 8 16 < rootOffset + nodeSpan then none else
  if headerField header 16 24 ≠ absent ∧ headerField header 16 24 ≥ b.length then none else
  some {
    recordSlotSize := headerField header 32 40
    bump := headerField header 8 16
    freeHead := headerField header 16 24
    nodeSize := nodeSpan
    recordCount := headerField header 40 48 }

theorem headerField_lt (h : Bytes) {lo hi n : ℕ} (hn : 256 ^ (hi - lo) = n) :
    headerField h lo hi < n := by
  rw [headerField, ← hn]
  apply (decode_lt _).trans_le
  apply Nat.pow_le_pow_right (by decide)
  rw [List.length_take]
  exact Nat.min_le_left _ _

theorem slot_of_loaded {f : TreeStrategy N} (hd : 8 ≤ d ∧ d < 2 ^ 64)
    (h : loadedFields N b d = some f) : 8 ≤ f.recordSlotSize ∧ f.recordSlotSize < 2 ^ 64 := by
  rw [loadedFields] at h
  split_ifs at h with hno hdepth hslot hbump hfree
  · rw [← Option.some.inj h]
    exact hd
  · rw [← Option.some.inj h]
    exact ⟨Nat.le_of_not_lt hslot, headerField_lt _ (by norm_num)⟩

variable {σ : Type} [VectorOrigin w σ]

abbrev dataOf (m : Mount N σ) : Bytes := VectorOrigin.bytes m.origin

variable {m : Mount N σ} {E : Stop BindingError → Mount N σ → Prop}

theorem memoryLen_spec (m : Mount N σ) :
    Ensures originLen m (fun len m' => len = (dataOf m).length ∧ m' = m) E := by
  rw [originLen, ensures_bind, ensures_get, ensures_pure]
  exact ⟨VectorOrigin.len_eq _, rfl⟩

/-- A read at an offset that the cast does not change. -/
theorem memoryData_spec (m : Mount N σ) (h : t < 2 ^ w) (n : ℕ) :
    Ensures (onOrigin (Origin.read t n)) m
      (fun data m' => data = ((dataOf m).drop t).take n ∧ m' = m) E := by
  rw [onOrigin, ensures_focus]
  apply (vectorRead_spec (E := fun _ _ => False) m.origin t n).mono
  · intro data o hdata
    rw [asUsize_of_lt h] at hdata
    exact ⟨hdata.1, by rw [hdata.2]⟩
  · exact fun _ _ hf => hf.elim

theorem readSlot_reads (hlen : (dataOf m).length < 2 ^ w) (pos : ℕ) :
    Ensures (readSlot pos) m (fun v m' => slotAt (dataOf m) pos = some v ∧ m' = m)
      (Refused fun _ _ => slotAt (dataOf m) pos = none) := by
  have h8 : slotBytes = 8 := rfl
  rw [slotAt]
  apply (memoryLen_spec m).andThen
  intro len m' hm'
  obtain ⟨rfl, rfl⟩ := hm'
  apply ensures_ite
  · intro hbehind
    rw [if_pos hbehind, ensures_pure]
    exact ⟨rfl, rfl⟩
  · intro hbefore
    have hbefore : pos < (dataOf m').length := Nat.lt_of_not_le hbefore
    rw [if_neg (Nat.not_le.mpr hbefore)]
    apply (memoryData_spec m' (hbefore.trans hlen) slotBytes).andThen
    intro buf m₁ hbuf
    obtain ⟨rfl, rfl⟩ := hbuf
    apply ensures_ite
    · intro hshort
      rw [List.length_take, List.length_drop] at hshort
      rw [ensures_throw, if_pos (by omega)]
      exact rfl
    · intro hwhole
      rw [List.length_take, List.length_drop] at hwhole
      rw [ensures_pure, if_neg (by omega), h8, decode_drop_take (by omega)]
      exact ⟨rfl, rfl⟩

theorem checkChildInBounds_reads (hlen : (dataOf m).length < 2 ^ 64) (child : ℕ) :
    Ensures (checkChildInBounds child) m
      (fun _ m' => child + nodeSpan ≤ (dataOf m).length ∧ m' = m)
      (Refused fun _ _ => (dataOf m).length < child + nodeSpan) := by
  rw [checkChildInBounds]
  apply ensures_ite
  · intro _
    apply (memoryLen_spec m).andThen
    intro len m' hm'
    obtain ⟨rfl, rfl⟩ := hm'
    apply ensures_ite
    · exact fun hbeyond => ensures_throw.mpr hbeyond
    · exact fun hwithin => ensures_pure.mpr ⟨Nat.le_of_not_lt hwithin, rfl⟩
  · intro hbeyond
    rw [ensures_throw]
    change (dataOf m).length < child + nodeSpan
    omega

theorem locateFrom_reads (hlen : (dataOf m).length < 2 ^ w) (hw : w ≤ 64) (pathLen : ℕ)
    {node : ℕ} (hnode : node + nodeSpan < 2 ^ 64) (rest : List Coord) :
    Ensures (locateFrom pathLen node rest) m
      (fun s m' => recordFrom (dataOf m) node rest = some s.recordOffset ∧
        s.leafNode + nodeSpan ≤ max (node + nodeSpan) (dataOf m).length ∧ m' = m)
      (Refused fun _ _ => recordFrom (dataOf m) node rest = none) := by
  have h64 : (dataOf m).length < 2 ^ 64 := hlen.trans_le (Nat.pow_le_pow_right (by omega) hw)
  induction rest generalizing node m with
  | nil => exact ensures_throw.mpr rfl
  | cons c rest ih =>
    rw [locateFrom, recordFrom]
    apply (slotPos_spec m hnode).andThen
    intro pos m' hpos
    obtain ⟨rfl, rfl⟩ := hpos
    apply (readSlot_reads hlen (slotAddr node c)).bind
    · intro value m₁ hvalue
      obtain ⟨hvalue, rfl⟩ := hvalue
      rw [hvalue, Option.bind_eq_bind, Option.bind_some]
      apply ensures_ite
      · intro hr
        rw [if_pos (.inl hr), ensures_pure]
        exact ⟨rfl, le_max_left _ _, rfl⟩
      · intro hr
        apply ensures_ite
        · intro habsent
          rw [if_pos (.inr habsent), ensures_pure, habsent]
          exact ⟨rfl, le_max_left _ _, rfl⟩
        · intro hlink
          rw [if_neg (by simp [hr, hlink])]
          apply (checkChildInBounds_reads h64 value).bind
          · intro _ m₂ hchild
            obtain ⟨hchild, rfl⟩ := hchild
            rw [if_pos hchild]
            apply (ih hlen (hchild.trans_lt h64) h64).mono
            · intro s m₃ hs
              obtain ⟨hrecord, hleaf, hm₃⟩ := hs
              exact ⟨hrecord, hleaf.trans (max_le (hchild.trans (le_max_right _ _))
                (le_max_right _ _)), hm₃⟩
            · exact fun _ _ hf => hf
          · intro e _ hf
            exact hf.mono fun _ _ hbeyond => by rw [if_neg (Nat.not_le.mpr hbeyond)]
    · intro e _ hf
      exact hf.mono fun _ _ hnone => by rw [hnone]; rfl

theorem locate_reads (hlen : (dataOf m).length < 2 ^ w) (hw : w ≤ 64) (p : CoordPath N) :
    Ensures (locate p) m
      (fun s m' => recordOf (dataOf m) p = some s.recordOffset ∧
        s.leafNode + nodeSpan ≤ max rootEnd (dataOf m).length ∧ m' = m)
      (Refused fun _ _ => recordOf (dataOf m) p = none) :=
  locateFrom_reads hlen hw N (by decide) p.coords

theorem load_reads (o : σ) :
    Ensures load (⟨freshFields N d, o⟩ : Mount N σ)
      (fun _ m => loadedFields N (VectorOrigin.bytes o) d = some m.strategy ∧ m.origin = o)
      (Refused fun _ _ => loadedFields N (VectorOrigin.bytes o) d = none) := by
  obtain ⟨b, hb⟩ : ∃ b, VectorOrigin.bytes o = b := ⟨_, rfl⟩
  have himage : dataOf (⟨freshFields N d, o⟩ : Mount N σ) = b := hb
  rw [load, loadedFields, hb]
  apply (memoryLen_spec _).andThen
  intro len m hm
  rw [himage] at hm
  obtain ⟨rfl, rfl⟩ := hm
  apply ensures_ite
  · intro hshort
    rw [if_pos (.inl hshort), ensures_pure]
    exact ⟨rfl, rfl⟩
  · intro hroom
    have hroom : 64 ≤ b.length := Nat.le_of_not_lt hroom
    apply (memoryData_spec _ (Nat.two_pow_pos w) headerLen).andThen
    intro data m₁ hdata
    rw [himage] at hdata
    obtain ⟨rfl, rfl⟩ := hdata
    rw [headerBuffer hroom]
    dsimp only
    apply ensures_ite
    · intro hmagic
      rw [if_pos (.inr hmagic), ensures_pure]
      exact ⟨rfl, rfl⟩
    · intro hmagic
      have hheader : ¬NoHeader b := by
        intro hno
        exact hno.elim (Nat.not_lt.mpr hroom) hmagic
      rw [if_neg hheader, ensures_bind, ensures_get]
      apply ensures_ite
      · intro hdepth
        have hdepth : headerField (b.take headerLen) 4 6 ≠ N ∨
            headerField (b.take headerLen) 24 32 ≠ nodeSpan := hdepth
        rw [if_pos hdepth, ensures_throw]
        exact rfl
      · intro hdepth
        have hdepth : ¬(headerField (b.take headerLen) 4 6 ≠ N ∨
            headerField (b.take headerLen) 24 32 ≠ nodeSpan) := hdepth
        rw [if_neg hdepth]
        apply ensures_ite
        · intro hslot
          rw [if_pos hslot, ensures_throw]
          exact rfl
        · intro hslot
          rw [if_neg hslot, ensures_bind, ensures_set]
          apply ensures_ite
          · intro hbump
            have hbump : headerField (b.take headerLen) 8 16 < rootOffset + nodeSpan := hbump
            rw [if_pos hbump, ensures_throw]
            exact rfl
          · intro hbump
            have hbump : ¬headerField (b.take headerLen) 8 16 < rootOffset + nodeSpan := hbump
            rw [if_neg hbump]
            apply ensures_ite
            · intro hfree
              rw [if_pos hfree, ensures_throw]
              exact rfl
            · intro hfree
              rw [if_neg hfree, ensures_pure]
              exact ⟨rfl, rfl⟩

/-- The length prefix that a `w`-bit target reads at a record offset. -/
def lengthAt (w : ℕ) (b : Bytes) (r : ℕ) : ℕ := asUsize w (wordAt b (asUsize w r))

def valueAt (w : ℕ) (b : Bytes) (r : ℕ) : Bytes := window b (asUsize w r + 8) (lengthAt w b r)

structure Accepts (w : ℕ) (b : Bytes) (s r : ℕ) : Prop where
  header : asUsize w r + 8 ≤ b.length
  fits : lengthAt w b r + 8 ≤ asUsize w s
  small : lengthAt w b r < 2 ^ (w - 1)
  payload : asUsize w r + 8 + lengthAt w b r ≤ b.length

/-- One of the checks of `read_record` fails. -/
def Refuses (w : ℕ) (b : Bytes) (s r : ℕ) : Prop :=
  b.length < asUsize w r + 8 ∨ 8 ≤ asUsize w s ∧ (asUsize w s < lengthAt w b r + 8 ∨
    lengthAt w b r < 2 ^ (w - 1) ∧ b.length < asUsize w r + 8 + lengthAt w b r)

/-- `read_record` panics: the slot size underflows, or the value does not fit a vector. -/
def Panics (w : ℕ) (b : Bytes) (s r : ℕ) : Prop :=
  asUsize w r + 8 ≤ b.length ∧ (asUsize w s < 8 ∨
    lengthAt w b r + 8 ≤ asUsize w s ∧ 2 ^ (w - 1) ≤ lengthAt w b r)

theorem Accepts.not_refuses (h : Accepts w b s r) : ¬Refuses w b s r := by
  obtain ⟨h₁, h₂, h₃, h₄⟩ := h
  rw [Refuses]
  omega

theorem Panics.not_accepts (h : Panics w b s r) : ¬Accepts w b s r := by
  rw [Panics] at h
  intro haccepts
  obtain ⟨h₁, h₂, h₃, h₄⟩ := haccepts
  omega

theorem Panics.not_refuses (h : Panics w b s r) : ¬Refuses w b s r := by
  rw [Panics] at h
  rw [Refuses]
  omega

theorem lengthAt_of_lt (hr : r < 2 ^ 64) : lengthAt 64 b r = wordAt b r := by
  rw [lengthAt, asUsize_of_lt hr, asUsize_of_lt (wordAt_lt b r)]

/-- The length prefix of a record fits the slot size, but no vector of a `w`-bit target. -/
def Oversized (w : ℕ) (b : Bytes) (s r : ℕ) : Prop :=
  r + 8 ≤ b.length ∧ wordAt b r + 8 ≤ s ∧ 2 ^ (w - 1) ≤ wordAt b r

theorem panics_iff_oversized (hr : r < 2 ^ 64) (hs : 8 ≤ s ∧ s < 2 ^ 64) :
    Panics 64 b s r ↔ Oversized 64 b s r := by
  rw [Panics, Oversized, lengthAt_of_lt hr, asUsize_of_lt hr, asUsize_of_lt hs.2]
  omega

/-- How a call ends whose only panic is one of `read_record`. -/
def EndsAs (refuses panics : Prop) {ε ρ : Type} : Stop ε → ρ → Prop
  | .err _, _ => refuses
  | .panic _, _ => panics

/-- A call that fails without a panic, whatever its error is turned into. -/
theorem Refused.endsAs {ε ε' ρ ρ' : Type} {A B P : Prop} {e : Stop ε} {f : ε → ε'} {s : ρ} {t : ρ'}
    (h : Refused (fun _ _ => P) e s) (hA : P → A) : EndsAs A B (Stop.map f e) t := by
  cases e with
  | err e => exact hA h
  | panic cause => exact h.elim

abbrev PanicsIff {ε σ α : Type} (x : EStateM (Stop ε) σ α) (t : σ) (P : Prop) : Prop :=
  Ensures x t (fun _ _ => ¬P) (EndsAs (¬P) P)

theorem PanicsIff.congr {ε σ α : Type} {x : EStateM (Stop ε) σ α} {t : σ} {P P' : Prop}
    (h : PanicsIff x t P) (hP : P ↔ P') : PanicsIff x t P' := by
  rw [← propext hP]
  exact h

/-- A program whose outcomes decide `P` between them. -/
theorem panicsIff_of {ε σ α : Type} {x : EStateM (Stop ε) σ α} {t : σ} {P A B : Prop}
    {Q : α → σ → Prop} (h : Ensures x t Q (EndsAs A B)) (hQ : ∀ a t', Q a t' → ¬P) (hA : A → ¬P)
    (hB : B → P) : PanicsIff x t P := by
  apply h.mono hQ
  intro stop _ hstop
  cases stop with
  | err e => exact hA hstop
  | panic cause => exact hB hstop

variable {st : CoordMapStore w N σ}

theorem memoryMapRead_spec (st : CoordMapStore w N σ) (offset n : ℕ)
    {E : Stop MapError → CoordMapStore w N σ → Prop} :
    Ensures (onMapOrigin (Origin.read offset n)) st
      (fun data st' => data = ((dataOf st.mount).drop (asUsize w offset)).take n ∧ st' = st) E := by
  rw [onMapOrigin, ensures_focus]
  apply (vectorRead_spec (E := fun _ _ => False) st.mount.origin offset n).mono
  · intro data o hdata
    exact ⟨hdata.1, by rw [hdata.2]⟩
  · exact fun _ _ hf => hf.elim

/-- A record offset that has its prefix in the image is no sum that overflows. -/
theorem asUsize_add (hw : w ≤ 64) (hr : r < 2 ^ 64) (h : asUsize w r + 8 < 2 ^ w) :
    r + 8 < 2 ^ 64 ∧ asUsize w (r + 8) = asUsize w r + 8 := by
  rw [asUsize] at h
  have hpow : 2 ^ 64 = 2 ^ (64 - w) * 2 ^ w := by
    rw [← pow_add, Nat.sub_add_cancel hw]
  have hdiv : r / 2 ^ w < 2 ^ (64 - w) := by
    rw [Nat.div_lt_iff_lt_mul (Nat.two_pow_pos w), ← hpow]
    exact hr
  have hsplit : 2 ^ w * (r / 2 ^ w) + r % 2 ^ w = r := Nat.div_add_mod r (2 ^ w)
  constructor
  · calc r + 8 < 2 ^ w * (r / 2 ^ w) + 2 ^ w := by omega
      _ = 2 ^ w * (r / 2 ^ w + 1) := by rw [Nat.mul_succ]
      _ ≤ 2 ^ w * 2 ^ (64 - w) := Nat.mul_le_mul_left _ hdiv
      _ = 2 ^ 64 := by rw [mul_comm, hpow]
  · rw [asUsize, asUsize, Nat.add_mod, Nat.mod_eq_of_lt (by omega : 8 < 2 ^ w), Nat.mod_eq_of_lt h]

/-- `read_record` behind its checks on the length prefix. -/
theorem readPayload_reads (st : CoordMapStore w N σ) (hw : w ≤ 64)
    (hr : r < 2 ^ 64) (hlen : (dataOf st.mount).length < 2 ^ w)
    (hroom : asUsize w r + 8 ≤ (dataOf st.mount).length) (len : ℕ) {e : MapError} :
    Ensures (do
        let payload ← addU64 r lengthBytes
        let value ← onMapOrigin (Origin.read payload len)
        if value.length < len then throw (.err e) else pure value) st
      (fun v st' => v = window (dataOf st.mount) (asUsize w r + 8) len ∧
        asUsize w r + 8 + len ≤ (dataOf st.mount).length ∧ st' = st)
      (Refused fun _ _ => (dataOf st.mount).length < asUsize w r + 8 + len) := by
  obtain ⟨hend, hcast⟩ := asUsize_add hw hr (hroom.trans_lt hlen)
  apply (addU64_spec hend).andThen
  intro payload st₁ hpayload
  obtain ⟨hpayload, rfl⟩ := hpayload
  apply (memoryMapRead_spec st₁ payload len).andThen
  intro value st₂ hvalue
  obtain ⟨hvalue, rfl⟩ := hvalue
  rw [hpayload, hcast] at hvalue
  have hlength : value.length = min len ((dataOf st₂.mount).length - (asUsize w r + 8)) := by
    rw [hvalue, List.length_take, List.length_drop]
  apply ensures_ite
  · intro hshort
    rw [ensures_throw]
    change (dataOf st₂.mount).length < asUsize w r + 8 + len
    omega
  · intro hfull
    rw [ensures_pure]
    have hpayload : asUsize w r + 8 + len ≤ (dataOf st₂.mount).length := by omega
    rw [hvalue, window_eq_drop_take hpayload]
    exact ⟨rfl, hpayload, rfl⟩

theorem readRecord_reads (hlen : (dataOf st.mount).length < 2 ^ w) (hw : w ≤ 64) (hr : r < 2 ^ 64)
    (hs : st.recordSlotSize = s) :
    Ensures (readRecord r) st
      (fun v st' => v = valueAt w (dataOf st.mount) r ∧ Accepts w (dataOf st.mount) s r ∧ st' = st)
      (EndsAs (Refuses w (dataOf st.mount) s r) (Panics w (dataOf st.mount) s r)) := by
  have h8 : lengthBytes = 8 := rfl
  rw [readRecord]
  apply (memoryMapRead_spec st r lengthBytes).andThen
  intro header st' hheader
  obtain ⟨rfl, rfl⟩ := hheader
  apply ensures_ite
  · intro hshort
    rw [List.length_take, List.length_drop] at hshort
    rw [ensures_throw]
    exact .inl (by omega)
  · intro hwhole
    rw [List.length_take, List.length_drop] at hwhole
    have hroom : asUsize w r + 8 ≤ (dataOf st'.mount).length := by omega
    have hword : asUsize w (decode (((dataOf st'.mount).drop (asUsize w r)).take lengthBytes)) =
        lengthAt w (dataOf st'.mount) r := by
      rw [h8, decode_drop_take hroom, lengthAt]
    rw [hword, maxValueLen, ensures_bind, ensures_bind, ensures_get, hs]
    apply ensures_ite
    · intro hunder
      rw [ensures_throw]
      exact ⟨hroom, .inl hunder⟩
    · intro hslot
      have hslot : 8 ≤ asUsize w s := Nat.le_of_not_lt hslot
      rw [ensures_pure]
      apply ensures_ite
      · intro hbeyond
        rw [ensures_throw]
        exact .inr ⟨hslot, .inl (by omega)⟩
      · intro hfits
        rw [vecZeroed, ite_bind]
        apply ensures_ite
        · intro hsmall
          rw [ensures_bind, ensures_pure]
          apply (readPayload_reads st' hw hr hlen hroom _).mono
          · intro value st₁ hvalue
            obtain ⟨hvalue, hpayload, hst₁⟩ := hvalue
            exact ⟨hvalue, ⟨hroom, by omega, hsmall, hpayload⟩, hst₁⟩
          · intro e st₁ hshort
            cases e with
            | err e => exact .inr ⟨hslot, .inr ⟨hsmall, hshort⟩⟩
            | panic cause => exact hshort.elim
        · intro hlarge
          rw [throw_bind, ensures_throw]
          exact ⟨hroom, .inr ⟨by omega, Nat.le_of_not_lt hlarge⟩⟩

theorem slotAt_lt {pos : ℕ} (h : slotAt b pos = some r) : r < 2 ^ 64 := by
  rw [slotAt] at h
  split_ifs at h with hbehind hcut
  · rw [← Option.some.inj h]
    exact Nat.two_pow_pos 64
  · rw [← Option.some.inj h]
    exact wordAt_lt b _

theorem recordFrom_lt {node : ℕ} {rest : List Coord} (h : recordFrom b node rest = some r) :
    r < 2 ^ 64 := by
  induction rest generalizing node with
  | nil => cases h
  | cons c rest ih =>
    rw [recordFrom] at h
    obtain ⟨value, hvalue, h⟩ := Option.bind_eq_some_iff.mp h
    split_ifs at h with hlast hchild
    · rw [← Option.some.inj h]
      exact slotAt_lt hvalue
    · exact ih h

/-- `get_path` over an image: nothing, or what `read_record` makes of the record. -/
theorem getPath_reads (hlen : (dataOf st.mount).length < 2 ^ w) (hw : w ≤ 64)
    (hs : st.recordSlotSize = s) (p : CoordPath N) :
    Ensures (getPath p) st
      (fun v _ => recordOf (dataOf st.mount) p = some 0 ∧ v = none ∨
        ∃ r, recordOf (dataOf st.mount) p = some r ∧ r ≠ 0 ∧ Accepts w (dataOf st.mount) s r ∧
          v = some (valueAt w (dataOf st.mount) r))
      (EndsAs (∀ r, recordOf (dataOf st.mount) p = some r → r ≠ 0 ∧ Refuses w (dataOf st.mount) s r)
        (∃ r, recordOf (dataOf st.mount) p = some r ∧ r ≠ 0 ∧ Panics w (dataOf st.mount) s r)) := by
  rw [getPath]
  apply (onStrategy_spec (locate_reads hlen hw p)).bind
  · intro slot st' hslot
    obtain ⟨hst', hrecord, -, hm⟩ := hslot
    rw [hm] at hst'
    subst hst'
    apply ensures_ite
    · intro habsent
      rw [habsent] at hrecord
      rw [ensures_pure]
      exact .inl ⟨hrecord, rfl⟩
    · intro hfound
      apply (readRecord_reads hlen hw (recordFrom_lt hrecord) hs).bind
      · intro v st₁ hv
        obtain ⟨hv, haccepts, -⟩ := hv
        rw [ensures_pure]
        exact .inr ⟨_, hrecord, hfound, haccepts, congrArg some hv⟩
      · intro e st₁ he
        cases e with
        | err e =>
          intro r hr
          rw [← Option.some.inj (hrecord.symm.trans hr)]
          exact ⟨hfound, he⟩
        | panic cause => exact ⟨_, hrecord, hfound, he⟩
  · intro e st' he
    obtain ⟨-, e, rfl, he⟩ := he
    apply Refused.endsAs he
    intro hnone r hr
    cases hnone.symm.trans hr

theorem getPath_panics (hlen : (dataOf st.mount).length < 2 ^ w) (hw : w ≤ 64)
    (hs : st.recordSlotSize = s) (p : CoordPath N) :
    PanicsIff (getPath p) st
      (∃ r, recordOf (dataOf st.mount) p = some r ∧ r ≠ 0 ∧ Panics w (dataOf st.mount) s r) := by
  apply panicsIff_of (getPath_reads hlen hw hs p)
  · intro v _ hv h
    obtain ⟨r, hr, hne, hpanics⟩ := h
    rcases hv with ⟨habsent, -⟩ | ⟨r', hr', -, haccepts, -⟩
    · exact hne (Option.some.inj (hr.symm.trans habsent))
    · rw [Option.some.inj (hr.symm.trans hr')] at hpanics
      exact hpanics.not_accepts haccepts
  · intro hrefuses h
    obtain ⟨r, hr, -, hpanics⟩ := h
    exact hpanics.not_refuses (hrefuses r hr).2
  · exact id

end Chton.ImageReads
