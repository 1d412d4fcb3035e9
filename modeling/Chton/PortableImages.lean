import Chton.BoundedOrigins
import Chton.MemoryOrigins

/-!
# Calls on other targets

The operations of a store on a target whose `usize` has `w` bits, 32 or more. Lengths, length
prefixes and the slot size are cast to `usize` there, and a vector that grows past 2^(w-1) bytes
panics. In a store that the program itself has written, and that is smaller than 2^30 bytes, no
cast changes anything and no vector doubles to 2^31 bytes, so each operation does what it does on
a 64-bit target.
-/

namespace Chton.PortableImages
open OutcomePrograms CallRuns MirroredPrograms ByteRegions LittleEndianWords Origins
open TreeStrategyProgram CoordMapProgram StoreLayouts StoreLayouts.Layout LayoutImages StrategyCalls
open StoreRepresentations TreeDescents RecordCalls MapCalls StoreReopening Enumerations MemoryOrigins
open OriginMirrors StoreRuns BoundedOrigins GrowingVectors LayoutContents

variable {N w : ℕ} {α : Type}

abbrev NarrowOrigin := BoundedOrigin (2 ^ 30)

/-- A vector with the bytes, whatever its capacity. -/
abbrev HoldsBytes (b : Bytes) (o : GrowingOrigin w) : Prop := o.data = b

theorem two_pow_le (hw : 32 ≤ w) : 2 ^ 32 ≤ 2 ^ w := Nat.pow_le_pow_right Nat.two_pos hw

/-- A vector that is written to below 2^30 has less than 2^31 bytes. -/
theorem growingWrite_eq (hw : 32 ≤ w) (o : GrowingOrigin w) {offset : ℕ} {data : Bytes}
    (hend : offset + data.length < 2 ^ 30) :
    ∃ o', Origin.write offset data o = .ok ⟨⟩ o' ∧ o'.data = overlay o.data offset data := by
  have hhalf : 2 ^ 31 ≤ 2 ^ (w - 1) := Nat.pow_le_pow_right Nat.two_pos (by omega)
  have hfull : 2 ^ 32 ≤ 2 ^ w := two_pow_le hw
  have hgrow : grow 1 o.capacity (offset + data.length) < 2 ^ (w - 1) :=
    grow_lt o.bounded (by omega) (by omega)
  obtain ⟨_, o', hwrite, hdata, -⟩ := ((growingWrite_spec o (by omega)).mono (fun _ _ h => h)
    fun _ _ h => Nat.not_le.mpr hgrow h.2).exists_ok
  exact ⟨o', hwrite, hdata⟩

theorem holding_vector (hw : 32 ≤ w) : Holding (2 ^ 30) (HoldsBytes (w := w)) where
  len h := congrArg List.length h
  read := by
    intro b o offset n hb _ hend
    have hfull : 2 ^ 32 ≤ 2 ^ w := two_pow_le hw
    obtain ⟨a, o', hx, rfl, rfl⟩ :=
      (vectorRead_spec (E := fun _ _ => False) o offset n).exists_ok
    rw [hx, asUsize_of_lt (by omega)]
    exact congrArg (fun b : Bytes => EStateM.Result.ok ((b.drop offset).take n) o') hb
  write := by
    intro b o offset data hb _ _ hend
    obtain ⟨o', hwrite, hdata⟩ := growingWrite_eq hw o hend
    exact ⟨o', hwrite, hdata.trans (congrArg (overlay · offset data) hb)⟩
  flush _ := rfl

variable (w) in
abbrev vectorMirror : Mirror NarrowOrigin (GrowingOrigin w) := boundedMirror (2 ^ 30) HoldsBytes

theorem vectors_mirror (hw : 32 ≤ w) : OriginsMirror (vectorMirror w) :=
  (holding_vector hw).mirrors (by decide)

theorem ideals_mirror : OriginsMirror (boundedMirror (2 ^ 30) HoldsIdeal) :=
  (holding_ideal (2 ^ 30)).mirrors (by decide)

/-- A store on a target with `w` bits that runs like `x`. -/
structure Ported (x : CoordMapStore 64 N NarrowOrigin) (y : CoordMapStore w N (GrowingOrigin w)) :
    Prop where
  mount : MountsRelated (vectorMirror w) x.mount y.mount
  len : x.len = y.len
  dirty : x.dirty = y.dirty

variable (N w) in
def portMirror : Mirror (CoordMapStore 64 N NarrowOrigin) (CoordMapStore w N (GrowingOrigin w)) where
  related := Ported
  overrun st := st.mount.origin.overrun = true

abbrev Ports (x : MapProgram 64 N NarrowOrigin α) (y : MapProgram w N (GrowingOrigin w) α) : Prop :=
  Mirrors (portMirror N w) x y

theorem ports_onStrategy {x : BindingProgram N NarrowOrigin α}
    {y : BindingProgram N (GrowingOrigin w) α}
    (hx : MountMirrors (vectorMirror w) x y) :
    Ports (onStrategy x) (onStrategy y : MapProgram w N (GrowingOrigin w) α) := by
  apply hx.focus
  · exact fun _ _ h => h.mount
  · exact fun _ _ _ _ h hm => ⟨hm, h.len, h.dirty⟩
  · exact fun _ _ h => h

theorem ports_onMapOrigin {x : EStateM (Stop OriginError) NarrowOrigin α}
    {y : EStateM (Stop OriginError) (GrowingOrigin w) α}
    (hx : Mirrors (vectorMirror w) x y) :
    Ports (onMapOrigin x : MapProgram 64 N NarrowOrigin α)
      (onMapOrigin y : MapProgram w N (GrowingOrigin w) α) := by
  apply hx.focus
  · exact fun _ _ h => h.mount.origin
  · exact fun _ _ _ _ h ho => ⟨⟨h.mount.strategy, h.mount.nodeSize, ho⟩, h.len, h.dirty⟩
  · exact fun _ _ h => h

theorem ports_modify {f : ℕ → ℕ} (dirty : Bool) :
    Ports (modify fun st => { st with len := f st.len, dirty := dirty } :
        MapProgram 64 N NarrowOrigin PUnit)
      (modify fun st => { st with len := f st.len, dirty := dirty } :
        MapProgram w N (GrowingOrigin w) PUnit) :=
  mirrors_modify fun _ _ h => ⟨h.mount, congrArg f h.len, rfl⟩

section
variable (hw : 32 ≤ w)
include hw

theorem ports_writeRecord (record : ℕ) (value : Bytes) :
    Ports (writeRecord record value : MapProgram 64 N NarrowOrigin Unit)
      (writeRecord record value : MapProgram w N (GrowingOrigin w) Unit) := by
  have hM := vectors_mirror hw
  have hlength := length_ne_zero (length_encode 8 value.length) (by decide)
  apply (ports_onMapOrigin (hM.write _ _ hlength)).bind
  intro _
  by_cases hvalue : value = []
  · rw [if_pos hvalue, if_pos hvalue]
    exact Mirrors.pure _
  · rw [if_neg hvalue, if_neg hvalue]
    apply (mirrors_addU64 _ _).bind
    exact fun _ => ports_onMapOrigin (hM.write _ _ hvalue)

theorem ports_clearChecked :
    Ports (clearChecked : MapProgram 64 N NarrowOrigin Unit)
      (clearChecked : MapProgram w N (GrowingOrigin w) Unit) := by
  apply (ports_onStrategy (mirrors_reset (vectors_mirror hw))).bind
  exact fun _ => ports_modify (f := fun _ => 0) false

theorem ports_flush :
    Ports (flush : MapProgram 64 N NarrowOrigin Unit)
      (flush : MapProgram w N (GrowingOrigin w) Unit) := by
  have hM := vectors_mirror hw
  apply mirrors_get_bind
  intro x y hxy
  rw [← hxy.len]
  have hcount := ports_onStrategy (w := w) (mirrors_modifyStrategy
    (f := fun s : TreeStrategy N => { s with recordCount := x.len }) fun _ => rfl)
  apply (hcount.bind fun _ => (ports_onStrategy (mirrors_writeHeader hM)).bind fun _ =>
    (ports_onMapOrigin hM.flush).bind fun _ => ports_modify (f := id) false) _ _ hxy

end

theorem asUsize_of_short (hw : 32 ≤ w) {n : ℕ} (h : n < 2 ^ 32) : asUsize w n = n :=
  asUsize_of_lt (Nat.lt_of_lt_of_le h (two_pow_le hw))

variable {x : CoordMapStore 64 N NarrowOrigin} {y : CoordMapStore w N (GrowingOrigin w)}
variable {L : Layout} {r s : ℕ} {v : Bytes}

structure ShortSlot (x : CoordMapStore 64 N NarrowOrigin) (s : ℕ) : Prop where
  slot : x.mount.strategy.recordSlotSize = s
  ge : 8 ≤ s
  lt : s < 2 ^ 32

theorem maxValueLen_eq {σ : Type} {st : CoordMapStore w N σ} (hw : 32 ≤ w)
    (hslot : st.mount.strategy.recordSlotSize = s) (h8 : 8 ≤ s) (hs : s < 2 ^ 32) :
    maxValueLen st = .ok (s - lengthBytes) st := by
  have hsize : asUsize w st.recordSlotSize = s := by
    rw [CoordMapStore.recordSlotSize, hslot, asUsize_of_short hw hs]
  change (if asUsize w st.recordSlotSize < lengthBytes then _ else _ : MapProgram w N σ ℕ) st = _
  rw [hsize, if_neg (Nat.not_lt.mpr h8)]
  rfl

theorem port_maxValueLen (hw : 32 ≤ w) (h : Ported x y) (hs : ShortSlot x s) :
    MirrorsAt (portMirror N w) maxValueLen maxValueLen x y ∧
      Ensures maxValueLen x (fun n x' => n = s - lengthBytes ∧ x' = x) fun _ _ => True := by
  have hx := maxValueLen_eq (by decide) hs.slot hs.ge hs.lt
  have hy := maxValueLen_eq hw (h.mount.strategy ▸ hs.slot) hs.ge hs.lt
  exact ⟨mirrorsAt_ok hx hy h, (ensures_of_ok hx).mpr ⟨rfl, rfl⟩⟩

theorem port_bumpLen (hw : 32 ≤ w) (h : Ported x y) (hlen : x.len + 1 < 2 ^ 32) :
    MirrorsAt (portMirror N w) bumpLen bumpLen x y := by
  have hbits : y.len + 1 < 2 ^ w := h.len ▸ Nat.lt_of_lt_of_le hlen (two_pow_le hw)
  have hlong : x.len + 1 < 2 ^ 64 := by omega
  have hx : (bumpLen : MapProgram 64 N NarrowOrigin Unit) x = .ok ⟨⟩ { x with len := x.len + 1 } := by
    change (if x.len + 1 < 2 ^ 64 then _ else _ : MapProgram 64 N NarrowOrigin Unit) x = _
    rw [if_pos hlong]
    rfl
  have hy : (bumpLen : MapProgram w N (GrowingOrigin w) Unit) y = .ok ⟨⟩ { y with len := y.len + 1 } := by
    change (if y.len + 1 < 2 ^ w then _ else _ : MapProgram w N (GrowingOrigin w) Unit) y = _
    rw [if_pos hbits]
    rfl
  exact mirrorsAt_ok hx hy ⟨h.mount, congrArg (· + 1) h.len, h.dirty⟩

/-- A read of the narrow region returns what is there, or notes that it reaches too far. -/
theorem readNarrow_spec (x : CoordMapStore 64 N NarrowOrigin) (offset n : ℕ) :
    Ensures (onMapOrigin (Origin.read offset n)) x
      (fun a x' => a = (x.mount.origin.data.drop offset).take n ∧ x' = x) fun _ _ => True := by
  rw [onMapOrigin, ensures_focus]
  by_cases hend : offset + n < 2 ^ 30
  · exact (ensures_of_ok (read_bounded x.mount.origin hend)).mpr ⟨rfl, rfl⟩
  · obtain ⟨e, o, hread, -⟩ := within_of_le (x := do
      let o ← get
      pure ((o.data.drop offset).take n)) (Nat.le_of_not_lt hend) x.mount.origin
    exact (ensures_of_error hread).mpr trivial

/-- The length of a record is cast to itself. -/
theorem port_readRecord (hw : 32 ≤ w) (h : Ported x y) (hs : ShortSlot x s)
    (hrec : RecordAt x.mount.origin.data r v) (hfit : v.length + 8 ≤ s) :
    MirrorsAt (portMirror N w) (readRecord r) (readRecord r) x y := by
  have hM := vectors_mirror hw
  obtain ⟨hroom, hword, -⟩ := hrec
  have hshort : v.length < 2 ^ 30 := by
    have hlength := h.mount.origin.1
    omega
  have hlen : ((x.mount.origin.data.drop r).take lengthBytes).length = lengthBytes := by
    rw [List.length_take, List.length_drop]
    change min 8 (x.mount.origin.data.length - r) = 8
    omega
  have hdecode : decode ((x.mount.origin.data.drop r).take lengthBytes) = v.length :=
    (decode_drop_take (by omega)).trans hword
  rw [readRecord, readRecord]
  apply (ports_onMapOrigin (hM.read r lengthBytes) x y h).bindKnown (readNarrow_spec x r lengthBytes)
  intro header x' y' hread hxy
  obtain ⟨rfl, rfl⟩ := hread
  rw [hlen, if_neg (lt_irrefl _), if_neg (lt_irrefl _), hdecode,
    asUsize_of_short (by decide) (by omega), asUsize_of_short hw (by omega)]
  obtain ⟨hmax, hknown⟩ := port_maxValueLen hw hxy hs
  apply hmax.bindKnown hknown
  intro maxLen x' y'' hmax hxy'
  obtain ⟨rfl, rfl⟩ := hmax
  have hhalf : v.length < 2 ^ (w - 1) :=
    Nat.lt_of_lt_of_le hshort (Nat.pow_le_pow_right Nat.two_pos (by omega))
  have hlong : v.length < 2 ^ (64 - 1) := by omega
  have hsmall : ¬v.length > s - lengthBytes := by
    change ¬v.length > s - 8
    omega
  rw [if_neg hsmall, if_neg hsmall, vecZeroed, vecZeroed, if_pos hhalf, if_pos hlong, pure_bind,
    pure_bind]
  have hrest : Ports (do
      let payload ← addU64 r lengthBytes
      let value ← onMapOrigin (Origin.read payload v.length)
      if value.length < v.length then throw (.err (.corruptRecord r "short record payload"))
      else pure value : MapProgram 64 N NarrowOrigin Bytes) (do
      let payload ← addU64 r lengthBytes
      let value ← onMapOrigin (Origin.read payload v.length)
      if value.length < v.length then throw (.err (.corruptRecord r "short record payload"))
      else pure value : MapProgram w N (GrowingOrigin w) Bytes) := by
    apply (mirrors_addU64 _ _).bind
    intro payload
    apply (ports_onMapOrigin (hM.read _ _)).bind
    exact fun _ => (Mirrors.throw _).ite (Mirrors.pure _)
  exact hrest _ _ hxy'

/-- The layout that the store has, seen without the end of its region. -/
structure Sound (x : CoordMapStore 64 N NarrowOrigin) (L : Layout) : Prop where
  bounded : Bounded x
  represents : Represents (idealOf x).mount L
  short : L.slot < 2 ^ 32

theorem Sound.shortSlot (h : Sound x L) : ShortSlot x L.slot :=
  ⟨h.represents.fields.slot, h.represents.valid.slot_ge, h.short⟩

theorem Sound.congr {x' : CoordMapStore 64 N NarrowOrigin} (h : Sound x L) (hb : Bounded x')
    (hs : SameStore (idealOf x) (idealOf x')) : Sound x' L :=
  ⟨hb, h.represents.congr hs.mount, h.short⟩

variable {p : CoordPath N}

theorem port_readEntry (hw : 32 ≤ w) (h : Ported x y) (hs : Sound x L) (hp : L.ptr p.coords ≠ 0) :
    MirrorsAt (portMirror N w) (readRecord (L.ptr p.coords)) (readRecord (L.ptr p.coords)) x y :=
  port_readRecord hw h hs.shortSlot (hs.represents.stored.records _ p.length_coords hp)
    (hs.represents.valid.fits _ p.length_coords hp)

theorem known_locate (hN : 0 < N) (hs : Sound x L) (p : CoordPath N) :
    Ensures (onStrategy (locate p)) x
      (fun slot x' => slot.recordOffset = L.ptr p.coords ∧ Sound x' L) fun _ _ => True := by
  have hspec := locateEntry_spec hs.represents.readable hN p
  apply (ensures_of_ideal hs.bounded (mirrors_onStrategy
    (mirrors_locateFrom ideals_mirror _ _ _)) hspec).mono
  · intro slot x' hx'
    obtain ⟨hb, rfl, hsame⟩ := hx'
    exact ⟨recordOffset_resolve hs.represents.valid hN p, hs.congr hb hsame⟩
  · exact fun _ _ _ => trivial

theorem port_getPath (hw : 32 ≤ w) (hN : 0 < N) (h : Ported x y) (hs : Sound x L)
    (p : CoordPath N) : MirrorsAt (portMirror N w) (getPath p) (getPath p) x y := by
  have hM := vectors_mirror hw
  rw [getPath, getPath]
  apply (ports_onStrategy (mirrors_locateFrom hM _ _ _) x y h).bindKnown (known_locate hN hs p)
  intro slot x' y' hslot hxy
  obtain ⟨hoffset, hs'⟩ := hslot
  rw [hoffset]
  apply MirrorsAt.ite
  · exact fun _ => MirrorsAt.pure (M := portMirror N w) hxy _
  · intro hp
    apply (port_readEntry hw hxy hs' hp).bind
    exact fun _ _ _ hxy' => MirrorsAt.pure (M := portMirror N w) hxy' _

theorem port_removePath (hw : 32 ≤ w) (hN : 0 < N) (h : Ported x y) (hs : Sound x L)
    (p : CoordPath N) : MirrorsAt (portMirror N w) (removePath p) (removePath p) x y := by
  have hM := vectors_mirror hw
  rw [removePath, removePath]
  apply (ports_onStrategy (mirrors_locateFrom hM _ _ _) x y h).bindKnown (known_locate hN hs p)
  intro slot x' y' hslot hxy
  obtain ⟨hoffset, hs'⟩ := hslot
  rw [hoffset]
  apply MirrorsAt.ite
  · exact fun _ => MirrorsAt.pure (M := portMirror N w) hxy _
  · intro hp
    apply (port_readEntry hw hxy hs' hp).bind
    intro prev x'' y'' hxy'
    apply (ports_onStrategy (mirrors_freeRecord hM _) _ _ hxy').bind
    intro _ _ _ hfreed
    apply (ports_onStrategy (mirrors_writeSlot hM _ _ _) _ _ hfreed).bind
    intro _ _ _ hcut
    apply (ports_modify (f := fun len => len - 1) true _ _ hcut).bind
    exact fun _ _ _ hdone => MirrorsAt.pure (M := portMirror N w) hdone _

/-- Every record takes eight bytes of the region, so a `usize` can count one more. -/
theorem Sound.len_lt (h : Sound x L) (hN : 0 < N) (hlen : x.len = (L.live N).ncard) :
    x.len + 1 < 2 ^ 32 := by
  have hvalid := h.represents.valid
  have hlt : ∀ q ∈ L.live N, L.ptr q ∈ Set.Iio x.mount.origin.data.length := by
    intro q hq
    have hroom : L.ptr q + 8 + (L.val q).length ≤ x.mount.origin.data.length :=
      (h.represents.stored.records q hq.1 hq.2).1
    exact Set.mem_Iio.mpr (by omega)
  have hinj : Set.InjOn L.ptr (L.live N) := by
    intro q hq q' hq' heq
    by_contra hne
    have hapart := hvalid.apart hN hne hq.2 hq'.2
    have hslot := hvalid.slot_ge
    rw [spanOf_record hq.1, spanOf_record hq'.1] at hapart
    omega
  have hcard := Set.ncard_le_ncard_of_injOn L.ptr hlt hinj (Set.finite_Iio _)
  have hbound := h.bounded.length
  rw [← Set.Ico_bot, bot_eq_zero, ← Finset.coe_Ico, Set.ncard_coe_finset, Nat.card_Ico] at hcard
  omega

theorem known_locateOrCreate (hN : 0 < N) (hs : Sound x L) (p : CoordPath N) :
    Ensures (onStrategy (locateOrCreate p)) x
      (fun slot x' => ∃ G, slot.recordOffset = G.ptr p.coords ∧ Sound x' G ∧ x'.len = x.len)
      fun _ _ => True := by
  have hspec : Ensures (onStrategy (locateOrCreate p)) (idealOf x) _ _ :=
    onStrategy_spec (locateOrCreate_spec hs.represents hN p)
  have hvalid := hs.represents.valid
  apply (ensures_of_ideal hs.bounded (mirrors_onStrategy
    (mirrors_locateOrCreateFrom ideals_mirror _ _ _)) hspec).mono
  · intro slot x' hx'
    obtain ⟨hb, hst, -, rfl, hrep, -⟩ := hx'
    have hkept := (descend_path hvalid p).1.kept
    have hlen : (idealOf x').len = (idealOf x).len := by rw [hst]
    exact ⟨_, recordOffset_resolve hrep.valid hN p, ⟨hb, hrep, hkept.slot ▸ hs.short⟩, hlen⟩
  · exact fun _ _ _ => trivial

theorem len_onStrategy (x : CoordMapStore 64 N NarrowOrigin)
    (prog : BindingProgram N NarrowOrigin α) :
    Ensures (onStrategy prog) x (fun _ x' => x'.len = x.len) fun _ _ => True := by
  have hspec : Ensures prog x.mount (fun _ _ => True) fun _ _ => True :=
    ⟨fun _ => trivial, fun _ => trivial⟩
  apply (onStrategy_spec hspec).mono
  · intro _ x' hx'
    rw [hx'.1]
  · exact fun _ _ _ => trivial

theorem port_putPath (hw : 32 ≤ w) (hN : 0 < N) (h : Ported x y) (hs : Sound x L)
    (hlen : x.len = (L.live N).ncard) (p : CoordPath N) (v : Bytes) :
    MirrorsAt (portMirror N w) (putPath p v) (putPath p v) x y := by
  have hM := vectors_mirror hw
  have hcount := hs.len_lt hN hlen
  rw [putPath, putPath]
  obtain ⟨hmax, hknown⟩ := port_maxValueLen hw h hs.shortSlot
  apply hmax.bindKnown hknown
  intro maxLen x₁ y₁ hx₁ hxy₁
  obtain ⟨rfl, rfl⟩ := hx₁
  apply MirrorsAt.ite
  · exact fun _ => Mirrors.throw _ _ _ hxy₁
  intro _
  apply (ports_onStrategy (mirrors_locateOrCreateFrom hM _ _ _) _ _ hxy₁).bindKnown
    (known_locateOrCreate hN hs p)
  intro slot x₂ y₂ hslot hxy₂
  obtain ⟨G, hoffset, hs₂, hlen₂⟩ := hslot
  rw [hoffset]
  have hdone (prev : Option Bytes) : Ports (do
      modify fun st => { st with dirty := true }
      pure prev : MapProgram 64 N NarrowOrigin (Option Bytes)) (do
      modify fun st => { st with dirty := true }
      pure prev : MapProgram w N (GrowingOrigin w) (Option Bytes)) :=
    (ports_modify (f := id) true).bind fun _ => Mirrors.pure prev
  apply MirrorsAt.ite
  · intro hp
    apply (port_readEntry hw hxy₂ hs₂ hp).bind
    intro prev _ _ hread
    apply (ports_writeRecord hw _ _ _ _ hread).bind
    exact fun _ => hdone (some prev)
  · intro _
    apply (ports_onStrategy (mirrors_allocRecord hM) _ _ hxy₂).bindKnown (len_onStrategy x₂ _)
    intro record x₃ y₃ hlen₃ hxy₃
    apply (ports_onStrategy (mirrors_writeSlot hM _ _ _) _ _ hxy₃).bindKnown (len_onStrategy x₃ _)
    intro _ x₄ y₄ hlen₄ hxy₄
    have hcount₄ : x₄.len + 1 < 2 ^ 32 := by
      rw [hlen₄, hlen₃, hlen₂]
      exact hcount
    apply (port_bumpLen hw hxy₄ hcount₄).bind
    intro _ _ _ hcounted
    apply (ports_writeRecord hw _ _ _ _ hcounted).bind
    exact fun _ => hdone none

/-- What is known of a record that was read. -/
theorem known_readEntry (hN : 0 < N) (hs : Sound x L) (hp : L.ptr p.coords ≠ 0) :
    Ensures (readRecord (L.ptr p.coords)) x (fun _ x' => Sound x' L) fun _ _ => True := by
  have hspec := readEntry_spec hs.represents.readable hN hp
  apply (ensures_of_ideal hs.bounded (mirrors_readRecord ideals_mirror _) hspec).mono
  · intro _ x' hx'
    obtain ⟨hb, -, hsame⟩ := hx'
    exact hs.congr hb hsame
  · exact fun _ _ _ => trivial

theorem port_collect (hw : 32 ≤ w) (hN : 0 < N) (h : Ported x y) (hs : Sound x L)
    {ps : List (CoordPath N)} (hps : ∀ p ∈ ps, L.ptr p.coords ≠ 0)
    (out : List (CoordKey N × Bytes)) :
    MirrorsAt (portMirror N w)
      ((ps.map fun p => (p, L.ptr p.coords)).foldlM (fun out e => do
        let value ← readRecord e.2
        pure (out ++ [(projectByteKey e.1, value)])) out)
      ((ps.map fun p => (p, L.ptr p.coords)).foldlM (fun out e => do
        let value ← readRecord e.2
        pure (out ++ [(projectByteKey e.1, value)])) out) x y := by
  induction ps generalizing x y out with
  | nil => exact MirrorsAt.pure (M := portMirror N w) h out
  | cons p ps ih =>
    obtain ⟨hp, hps⟩ := List.forall_mem_cons.mp hps
    rw [List.map_cons, List.foldlM_cons, List.foldlM_cons, bind_assoc, bind_assoc]
    apply (port_readEntry hw h hs hp).bindKnown (known_readEntry hN hs hp)
    intro value x' y' hs' hxy
    exact ih hxy hs' hps _

theorem port_entries (hw : 32 ≤ w) (hN : 0 < N) (h : Ported x y) (hs : Sound x L)
    (hsync : Synced N x.mount.origin.data L) :
    MirrorsAt (portMirror N w) entries entries x y := by
  have hM := vectors_mirror hw
  have hspec : Ensures (onStrategy iter) (idealOf x) _ _ :=
    onStrategy_read (iter_spec hN hs.represents hsync)
  rw [entries, entries]
  apply (ports_onStrategy (mirrors_iterNode hM _ _ _ _ _) x y h).bindKnown (ensures_of_ideal
    hs.bounded (mirrors_onStrategy (mirrors_iterNode ideals_mirror _ _ _ _ _)) hspec)
  intro found x' y' hfound hxy
  obtain ⟨hb, rfl, hsame⟩ := hfound
  apply port_collect hw hN hxy (hs.congr hb hsame)
  exact fun p hp => (mem_livePaths hs.represents.valid.toWired).mp hp

end Chton.PortableImages
