import Chton.MediumOrigins
import Chton.OriginMirrors
import Chton.StoreRuns

/-!
# Stores over different media

A store over memory, over a file and over a mapped file. Each of these origins is in the
state in which opening its bytes would leave it, and does to the bytes what a byte region
does as long as no call reaches 2^63. So every run gives the same replies on all of them, and
leaves the same bytes behind.
-/

namespace Chton.MediumAgreement
open OutcomePrograms CallRuns MirroredPrograms ByteRegions Origins TreeStrategyProgram
open CoordMapProgram MapUpdates MemoryOrigins BoundedOrigins MediumOrigins OriginMirrors StoreRuns

variable {N : ℕ} {σ τ : Type}

/-- `held b` is the origin over a medium with the bytes `b`. -/
structure Faithful [Medium τ] (held : Bytes → τ) : Prop where
  len : ∀ b, Origin.len (held b) = b.length
  bytes : ∀ b, Medium.bytes (held b) = b
  reopen : ∀ b, Medium.reopen (held b) = held b
  read : ∀ b offset n, b.length < 2 ^ 63 → offset + n < 2 ^ 63 →
    Origin.read offset n (held b) = .ok ((b.drop offset).take n) (held b)
  write : ∀ b offset data, b.length < 2 ^ 63 → data ≠ [] → offset + data.length < 2 ^ 63 →
    Origin.write offset data (held b) = .ok ⟨⟩ (held (overlay b offset data))
  flush : ∀ b, Origin.flush (held b) = .ok ⟨⟩ (held b)

theorem faithful_memory : Faithful (MemoryOrigin.mk (w := 64)) where
  len _ := rfl
  bytes _ := rfl
  reopen _ := rfl
  read := by
    intro b offset n _ hend
    obtain ⟨a, o, hx, ha, ho⟩ :=
      (vectorRead_spec (E := fun _ _ => False) (⟨b⟩ : MemoryOrigin 64) offset n).exists_ok
    rw [hx, ha, ho, asUsize_of_lt (by omega)]
    rfl
  write := by
    intro b offset data _ _ hend
    have hfits : offset + data.length < 2 ^ 64 := by omega
    obtain ⟨a, o, hx, ho⟩ := (memoryWrite_spec (E := fun _ _ => False) ⟨b⟩ hfits (.inr hend)).exists_ok
    rw [hx, ho]
  flush _ := rfl

theorem seek_within {offset : ℕ} (h : offset < 2 ^ 63) (o : FileOrigin) :
    FileOrigin.seek offset o = .ok ⟨⟩ o := by
  rw [FileOrigin.seek, if_pos h]
  rfl

/-- The file origin counts the end of a write, whether or not the file reaches it. -/
theorem fileWrite_eq {offset : ℕ} {data : Bytes} (h : offset + data.length < 2 ^ 63) (b : Bytes) :
    Origin.write offset data (FileOrigin.openFile b) =
      .ok ⟨⟩ ⟨writeAll b offset data, max b.length (offset + data.length)⟩ := by
  change (if offset + data.length < 2 ^ 64 then _ else _ : EStateM _ _ _) _ = _
  rw [if_pos (by omega), bind_apply, seek_within (by omega)]
  change EStateM.Result.ok _ (if offset + data.length > b.length then
    (⟨writeAll b offset data, offset + data.length⟩ : FileOrigin)
    else ⟨writeAll b offset data, b.length⟩) = _
  split_ifs with hgrow
  · rw [max_eq_right (le_of_lt hgrow)]
  · rw [max_eq_left (Nat.le_of_not_lt hgrow)]

theorem faithful_file : Faithful FileOrigin.openFile where
  len _ := rfl
  bytes _ := rfl
  reopen _ := rfl
  read := by
    intro b offset n _ hend
    change (FileOrigin.seek offset >>= _) (FileOrigin.openFile b) = _
    rw [bind_apply, seek_within (by omega)]
    rfl
  write := by
    intro b offset data _ hdata hend
    rw [fileWrite_eq hend, writeAll, if_neg hdata, FileOrigin.openFile, length_overlay]
  flush _ := rfl

theorem mapped_of_pos {b : Bytes} (h : 0 < b.length) :
    MappedFileOrigin.openFile b = ⟨b, some b.length, b.length⟩ := by
  rw [MappedFileOrigin.openFile, if_pos h]

theorem mapped_spec {o : MappedFileOrigin} {size : ℕ} (h : o.map = some size)
    {E : Stop OriginError → MappedFileOrigin → Prop} :
    Ensures MappedFileOrigin.mapped o (fun n o' => n = size ∧ o' = o) E := by
  rw [MappedFileOrigin.mapped, ensures_bind, ensures_get, h, ensures_pure]
  exact ⟨rfl, rfl⟩

theorem copy_spec {size start : ℕ} {data : Bytes} (h : start + data.length ≤ size)
    (o : MappedFileOrigin) {E : Stop OriginError → MappedFileOrigin → Prop} :
    Ensures (MappedFileOrigin.copy size start data) o
      (fun _ o' => o' = { o with file := writeAll o.file start data }) E := by
  rw [MappedFileOrigin.copy, if_pos h, ensures_modify]

theorem writeAll_within {b data : Bytes} {offset : ℕ} (h : offset + data.length ≤ b.length) :
    writeAll b offset data = overlay b offset data := by
  rw [writeAll]
  split_ifs with hdata
  · subst hdata
    exact (overlay_empty h).symm
  · rfl

/-- Extending a file up to the end of a write before it is written. -/
theorem overlay_setLen {b data : Bytes} {offset : ℕ} (h : b.length ≤ offset + data.length) :
    overlay (setLen b (offset + data.length)) offset data = overlay b offset data := by
  have hset : setLen b (offset + data.length) =
      b ++ List.replicate (offset + data.length - b.length) 0 := by
    rw [setLen, List.take_of_length_le h]
  have hlength : (b ++ List.replicate (offset + data.length - b.length) (0 : UInt8)).length =
      offset + data.length := by
    rw [List.length_append, List.length_replicate]
    omega
  have hgap : min (offset - b.length) (offset + data.length - b.length) =
      min (offset - b.length) (offset - b.length) := by omega
  rw [overlay, overlay, hset, hlength, Nat.sub_eq_zero_of_le (Nat.le_add_right ..),
    List.replicate_zero, List.append_nil, List.drop_eq_nil_of_le hlength.le,
    List.drop_eq_nil_of_le h, List.take_append, List.take_append, List.take_replicate,
    List.take_replicate, hgap]

theorem length_setLen (b : Bytes) (size : ℕ) : (setLen b size).length = size := by
  rw [setLen, List.length_append, List.length_take, List.length_replicate]
  omega

theorem mappedRead_spec {b : Bytes} {offset : ℕ} (n : ℕ) (hlen : b.length < 2 ^ 64)
    (hoffset : offset < 2 ^ 64) {E : Stop OriginError → MappedFileOrigin → Prop} :
    Ensures (Origin.read offset n) (MappedFileOrigin.openFile b)
      (fun a o => a = (b.drop offset).take n ∧ o = MappedFileOrigin.openFile b) E := by
  have hcast : asUsize 64 b.length = b.length := asUsize_of_lt hlen
  have hstart : asUsize 64 offset = offset := asUsize_of_lt hoffset
  change Ensures (get >>= _) _ _ _
  rw [ensures_bind, ensures_get]
  apply ensures_ite
  · intro hbehind
    have hbehind : b.length ≤ offset := by
      change asUsize 64 offset ≥ asUsize 64 b.length at hbehind
      omega
    rw [ensures_pure, List.drop_eq_nil_of_le hbehind, List.take_nil]
    exact ⟨rfl, rfl⟩
  · intro hbefore
    have hbefore : offset < b.length := by
      change ¬asUsize 64 offset ≥ asUsize 64 b.length at hbefore
      omega
    rw [mapped_of_pos (by omega)]
    apply (mapped_spec (o := ⟨b, some b.length, b.length⟩) rfl).andThen
    intro size o hsize
    obtain ⟨rfl, rfl⟩ := hsize
    dsimp only
    rw [hcast, hstart, if_pos (by omega), ensures_pure, ← List.length_drop, min_comm,
      ← List.take_eq_take_min]
    exact ⟨rfl, rfl⟩

/-- A write, of no bytes or of some, leaves the mapping of the file that it makes. -/
theorem mappedWrite_spec {b data : Bytes} {offset : ℕ} (hend : offset + data.length < 2 ^ 64)
    {E : Stop OriginError → MappedFileOrigin → Prop} :
    Ensures (Origin.write offset data) (MappedFileOrigin.openFile b)
      (fun _ o => o = MappedFileOrigin.openFile (overlay b offset data)) E := by
  have hstart : asUsize 64 offset = offset := asUsize_of_lt (by omega)
  change Ensures (if offset + data.length < 2 ^ 64 then _ else _ : EStateM _ _ _) _ _ _
  rw [if_pos hend, ensures_bind, ensures_get]
  apply ensures_ite
  · intro hgrow
    have hgrow : b.length < offset + data.length := hgrow
    have hwritten : writeAll (setLen b (offset + data.length)) offset data =
        overlay b offset data := by
      rw [writeAll_within (length_setLen ..).ge, overlay_setLen hgrow.le]
    have hheld : MappedFileOrigin.openFile (overlay b offset data) =
        ⟨overlay b offset data, some (offset + data.length), offset + data.length⟩ := by
      rw [mapped_of_pos (by rw [length_overlay]; omega), length_overlay, max_eq_right hgrow.le]
    rw [ensures_bind, ensures_set, hstart, hheld, ← hwritten]
    exact copy_spec le_rfl _
  · intro hwithin
    have hwithin : offset + data.length ≤ b.length := Nat.le_of_not_lt hwithin
    have hlength : (overlay b offset data).length = b.length := by
      rw [length_overlay, max_eq_left hwithin]
    apply ensures_ite
    · intro hnone
      -- no mapping: the file is empty, and so is the write
      obtain ⟨rfl, hoffset, hdata⟩ : b = [] ∧ offset = 0 ∧ data.length = 0 := by
        by_cases hpos : 0 < b.length
        · rw [mapped_of_pos hpos] at hnone
          cases hnone
        · exact ⟨List.length_eq_zero_iff.mp (by omega), by omega, by omega⟩
      rw [ensures_pure, List.length_eq_zero_iff.mp hlength]
    · intro hmap
      have hpos : 0 < b.length := by
        by_contra hzero
        exact hmap (if_neg hzero)
      rw [mapped_of_pos hpos, mapped_of_pos (hlength ▸ hpos), hlength, ← writeAll_within hwithin]
      apply (mapped_spec (o := ⟨b, some b.length, b.length⟩) rfl).andThen
      intro size o hsize
      obtain ⟨rfl, rfl⟩ := hsize
      rw [hstart]
      exact copy_spec hwithin _

theorem faithful_mapped : Faithful MappedFileOrigin.openFile where
  len _ := rfl
  bytes _ := rfl
  reopen _ := rfl
  read := by
    intro b offset n hlen hend
    have hlen64 : b.length < 2 ^ 64 := by omega
    have hoffset : offset < 2 ^ 64 := by omega
    obtain ⟨a, o, hx, ha, ho⟩ :=
      (mappedRead_spec (E := fun _ _ => False) n hlen64 hoffset).exists_ok
    rw [hx, ha, ho]
  write := by
    intro b offset data _ _ hend
    have hfits : offset + data.length < 2 ^ 64 := by omega
    obtain ⟨a, o, hx, ho⟩ :=
      (mappedWrite_spec (b := b) (E := fun _ _ => False) hfits).exists_ok
    rw [hx, ho]
  flush _ := rfl

abbrev Region := BoundedOrigin (2 ^ 63)

abbrev HeldBy (held : Bytes → τ) (b : Bytes) (t : τ) : Prop := t = held b

theorem Faithful.holding [Medium τ] {held : Bytes → τ} (h : Faithful held) :
    Holding (2 ^ 63) (HeldBy held) where
  len ht := by rw [ht, h.len]
  read offset n ht hlen hend := by rw [ht, h.read _ offset n hlen hend]
  write offset data ht hlen hdata hend :=
    ⟨_, by rw [ht, h.write _ offset data hlen hdata hend], rfl⟩
  flush ht := by rw [ht, h.flush]

abbrev regionMirror (held : Bytes → τ) : Mirror Region τ := boundedMirror (2 ^ 63) (HeldBy held)

theorem Faithful.mirrors [Medium τ] {held : Bytes → τ} (h : Faithful held) :
    OriginsMirror (regionMirror held) := h.holding.mirrors (by decide)

section
variable [Medium σ]

/-- Drop the store and open the medium again, with some default slot size. -/
def openMedium (d : SlotSize) : MapProgram 64 N σ Unit := fun st =>
  match CoordMapStore.load (Medium.reopen st.mount.origin) d.val with
  | .ok st' => .ok ⟨⟩ st'
  | .error e => .error e st

def reopenMedium (d : SlotSize) : MapProgram 64 N σ Unit := do
  flush
  openMedium d

def stepOnMedium : Step N → MapProgram 64 N σ (Answer N)
  | .call c => c.program
  | .reopen d => do
    reopenMedium d
    pure .done

def performOnMedium (x : Step N) (st : CoordMapStore 64 N σ) : Reply N × CoordMapStore 64 N σ :=
  answer (stepOnMedium x) st

end

variable {held : Bytes → τ} [Medium τ]

theorem mirrors_reopenMedium (h : Faithful held) (d : SlotSize) :
    StoreMirrors (regionMirror held) (reopenMedium d : MapProgram 64 N Region Unit)
      (reopenMedium d) := by
  apply (mirrors_flush h.mirrors).bind
  intro _ st st' hst
  have ho : (regionMirror held).related (Medium.reopen st.mount.origin)
      (Medium.reopen st'.mount.origin) := by
    obtain ⟨hlen, hheld⟩ := hst.mount.origin
    refine ⟨hlen, ?_⟩
    rw [hheld, h.reopen]
    rfl
  obtain ⟨e, hx, hy⟩ | ⟨st₁, st₂, hx, hy, hloaded⟩ :=
    load_mirrors (N := N) (w := 64) h.mirrors ho d.val
  · exact mirrorsAt_error (by rw [openMedium, hx]) (by rw [openMedium, hy]) hst
  · exact mirrorsAt_ok (by rw [openMedium, hx]) (by rw [openMedium, hy]) hloaded

theorem mirrors_step (h : Faithful held) (x : Step N) :
    StoreMirrors (regionMirror held) (stepOnMedium x : MapProgram 64 N Region (Answer N))
      (stepOnMedium x) := by
  cases x with
  | call c => exact mirrors_storeCall h.mirrors c
  | reopen d => exact (mirrors_reopenMedium h d).bind fun _ => Mirrors.pure _

structure SameMedia [Medium σ] (st : CoordMapStore 64 N σ) (st' : CoordMapStore 64 N τ) : Prop where
  bytes : Medium.bytes st.mount.origin = Medium.bytes st'.mount.origin
  originLen : Origin.len st.mount.origin = Origin.len st'.mount.origin
  len : st.len = st'.len

/-- After each call of a run the two stores have given the same replies and hold the same
bytes. -/
def AgreeingRuns [Medium σ] (xs : List (Step N)) (st : CoordMapStore 64 N σ)
    (st' : CoordMapStore 64 N τ) : Prop :=
  ∀ ys, ys <+: xs → (run performOnMedium ys st).1 = (run performOnMedium ys st').1 ∧
    SameMedia (run performOnMedium ys st).2 (run performOnMedium ys st').2

/-- No call of the run reaches an offset of 2^63 or beyond. -/
def StaysBelow (xs : List (Step N)) (st : CoordMapStore 64 N Region) : Prop :=
  ∀ ys, ys <+: xs → (run performOnMedium ys st).2.mount.origin.overrun = false

theorem run_related (h : Faithful held) (d : SlotSize) {xs : List (Step N)}
    (hxs : StaysBelow xs ⟨⟨freshFields N d.val, ⟨[], false⟩⟩, 0, false⟩) :
    (run performOnMedium xs (⟨⟨freshFields N d.val, ⟨[], false⟩⟩, 0, false⟩ :
          CoordMapStore 64 N Region)).1 =
        (run performOnMedium xs ⟨⟨freshFields N d.val, held []⟩, 0, false⟩).1 ∧
      StoresRelated (regionMirror held)
        (run performOnMedium xs ⟨⟨freshFields N d.val, ⟨[], false⟩⟩, 0, false⟩).2
        (run performOnMedium xs ⟨⟨freshFields N d.val, held []⟩, 0, false⟩).2 := by
  have hnew : StoresRelated (regionMirror held)
      (⟨⟨freshFields N d.val, ⟨[], false⟩⟩, 0, false⟩ : CoordMapStore 64 N Region)
      ⟨⟨freshFields N d.val, held []⟩, 0, false⟩ :=
    ⟨⟨rfl, rfl, Nat.two_pow_pos 63, rfl⟩, rfl, rfl⟩
  apply run_mirrors (M := storeMirror N 64 (regionMirror held)) (mirrors_step h) hnew
  intro ys hys hover
  exact absurd hover (Bool.eq_false_iff.mp (hxs ys hys))

theorem sameMedia [Medium σ] {held' : Bytes → σ} (h : Faithful held) (h' : Faithful held')
    {st : CoordMapStore 64 N Region} {st₁ : CoordMapStore 64 N σ}
    {st₂ : CoordMapStore 64 N τ} (h₁ : StoresRelated (regionMirror held') st st₁)
    (h₂ : StoresRelated (regionMirror held) st st₂) : SameMedia st₁ st₂ := by
  have hheld₁ := h₁.mount.origin.2
  have hheld₂ := h₂.mount.origin.2
  constructor
  · rw [hheld₁, hheld₂, h'.bytes, h.bytes]
  · rw [hheld₁, hheld₂, h'.len, h.len]
  · rw [← h₁.len, h₂.len]

theorem agreeingRuns [Medium σ] {held' : Bytes → σ} (h : Faithful held) (h' : Faithful held')
    (d : SlotSize) {xs : List (Step N)}
    (hxs : StaysBelow xs ⟨⟨freshFields N d.val, ⟨[], false⟩⟩, 0, false⟩) :
    AgreeingRuns xs (⟨⟨freshFields N d.val, held' []⟩, 0, false⟩ : CoordMapStore 64 N σ)
      (⟨⟨freshFields N d.val, held []⟩, 0, false⟩ : CoordMapStore 64 N τ) := by
  intro ys hys
  have hbelow : StaysBelow ys ⟨⟨freshFields N d.val, ⟨[], false⟩⟩, 0, false⟩ :=
    fun zs hzs => hxs zs (hzs.trans hys)
  obtain ⟨hreplies, hrelated⟩ := run_related h d hbelow
  obtain ⟨hreplies', hrelated'⟩ := run_related h' d hbelow
  exact ⟨hreplies'.symm.trans hreplies, sameMedia h h' hrelated' hrelated⟩

/-- Over ideal files, and as long as all offsets stay below 2^63, a store gives the same
replies and leaves the same bytes over memory, over a file and over a mapped file. -/
theorem media_agree (d : SlotSize) :
    ∃ (region : CoordMapStore 64 N Region) (memory : CoordMapStore 64 N (MemoryOrigin 64))
      (file : CoordMapStore 64 N FileOrigin) (mapped : CoordMapStore 64 N MappedFileOrigin),
      CoordMapStore.new ⟨[], false⟩ d.val = .ok region ∧
      CoordMapStore.new ⟨[]⟩ d.val = .ok memory ∧
      CoordMapStore.new (FileOrigin.openFile []) d.val = .ok file ∧
      CoordMapStore.new (MappedFileOrigin.openFile []) d.val = .ok mapped ∧
      ∀ xs, StaysBelow xs region → AgreeingRuns xs memory file ∧ AgreeingRuns xs memory mapped := by
  refine ⟨_, _, _, _, new_spec _ d.property.1, new_spec _ d.property.1, new_spec _ d.property.1,
    new_spec _ d.property.1, ?_⟩
  intro xs hxs
  exact ⟨agreeingRuns faithful_file faithful_memory d hxs,
    agreeingRuns faithful_mapped faithful_memory d hxs⟩

/-- A region is opened as it was left. -/
theorem performOnMedium_region :
    (performOnMedium : Step N → CoordMapStore 64 N Region → _) = Step.perform := by
  funext x st
  cases x with
  | call c => rfl
  | reopen d => rfl

theorem clean_reopened (xs : List (Step N)) (d : SlotSize) (st : CoordMapStore 64 N Region)
    (h : (run performOnMedium (xs ++ [.call .flush]) st).2.mount.origin.overrun = false) :
    (run performOnMedium (xs ++ [.reopen d]) st).2.mount.origin.overrun = false := by
  rewrite [performOnMedium_region] at h ⊢
  exact clean_last (by decide) xs d st h

def shortLife : List (Step 1) :=
  [.call (.map (.remove (CoordPath.zero 1))),
    .call (.map (.put (CoordPath.zero 1) (Value.byte 7))), .call .flush]

theorem clean_shortLife : ∀ ys, ys <+: shortLife ++ [.call .flush] →
    (run performOnMedium ys (⟨⟨freshFields 1 16, ⟨[], false⟩⟩, 0, false⟩ :
      CoordMapStore 64 1 Region)).2.mount.origin.overrun = false := by
  intro ys hys
  simp only [shortLife, List.cons_append, List.nil_append, List.prefix_cons_iff,
    List.prefix_nil] at hys
  obtain rfl | ⟨_, rfl, rfl | ⟨_, rfl, rfl | ⟨_, rfl, rfl | ⟨_, rfl, rfl⟩⟩⟩⟩ := hys
  · rfl
  · decide +kernel
  · decide +kernel
  · decide +kernel
  · decide +kernel

/-- The same, with opening the medium again at the end. -/
theorem media_agree_put :
    ∃ (memory : CoordMapStore 64 1 (MemoryOrigin 64)) (file : CoordMapStore 64 1 FileOrigin)
      (mapped : CoordMapStore 64 1 MappedFileOrigin),
      CoordMapStore.new ⟨[]⟩ 16 = .ok memory ∧
      CoordMapStore.new (FileOrigin.openFile []) 16 = .ok file ∧
      CoordMapStore.new (MappedFileOrigin.openFile []) 16 = .ok mapped ∧
      AgreeingRuns (shortLife ++ [.reopen ⟨8, by decide⟩]) memory file ∧
      AgreeingRuns (shortLife ++ [.reopen ⟨8, by decide⟩]) memory mapped := by
  obtain ⟨region, memory, file, mapped, hregion, hmemory, hfile, hmapped, hagree⟩ :=
    media_agree (N := 1) ⟨16, by decide⟩
  have hclean := clean_shortLife
  rw [Except.ok.inj ((new_spec _ (by decide)).symm.trans hregion)] at hclean
  have hbelow : StaysBelow (shortLife ++ [.reopen ⟨8, by decide⟩]) region := by
    intro ys hys
    rcases List.prefix_concat_iff.mp hys with rfl | hys
    · exact clean_reopened shortLife ⟨8, by decide⟩ region (hclean _ List.prefix_rfl)
    · exact hclean ys (hys.trans (List.prefix_append _ _))
  exact ⟨memory, file, mapped, hmemory, hfile, hmapped, hagree _ hbelow⟩

end Chton.MediumAgreement
