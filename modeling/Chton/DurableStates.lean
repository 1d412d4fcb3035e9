import Chton.OriginFrames
import Chton.SoundStores

/-!
# What survives on the medium

An origin is a cache in front of a medium here: writes change the cache, and only `flush`
copies it to the medium. A store that is not buffered should be found again on the medium.
`clear_checked` breaks this: it takes the flag back without a flush, so the medium still
holds what was flushed before. In runs that clear only when the medium records no entries
the promise holds in every state.
-/

namespace Chton.DurableStates
open OutcomePrograms CallRuns ByteRegions Origins TreeStrategyProgram CoordMapProgram
open StoreLayouts StoreLayouts.Layout StrategyCalls StoreRepresentations RecordCalls HeaderCalls
open MapCalls MapUpdates LayoutContents StoreReopening StoreRuns FiniteMaps PathlessStores
open OriginFrames SoundStores

structure CachedOrigin where
  cache : Bytes
  medium : Bytes
  deriving DecidableEq

instance : ByteOrigin CachedOrigin where
  len o := o.cache.length
  read offset n := fun o => .ok ((o.cache.drop offset).take n) o
  write offset data := fun o => .ok () { o with cache := overlay o.cache offset data }
  flush := modify fun o => { o with medium := o.cache }
  bytes := CachedOrigin.cache
  mayFail := False
  len_eq _ := rfl
  read_spec _ _ _ := by
    refine ⟨fun h => ?_, fun h => by cases h⟩
    cases h
    exact ⟨rfl, rfl⟩
  write_spec _ _ _ _ _ := by
    refine ⟨fun h => ?_, fun h => by cases h⟩
    cases h
    rfl
  flush_spec _ := ensures_modify.mpr rfl

theorem CachedOrigin.neverFails : NeverFails CachedOrigin := id

theorem untouched_medium : Untouched CachedOrigin.medium where
  read _ _ _ := ⟨fun h => by cases h; rfl, fun h => by cases h⟩
  write _ _ _ := ⟨fun h => by cases h; rfl, fun h => by cases h⟩

abbrev CachedStore (N : ℕ) := CoordMapStore 64 N CachedOrigin

variable {N : ℕ} {st st' : CachedStore N} {c : StoreCall N}

def cache (st : CachedStore N) : Bytes := st.mount.origin.cache

def medium (st : CachedStore N) : Bytes := st.mount.origin.medium

/-- The entries that the header in `b` records; none when there is no header. -/
def recordedCount (b : Bytes) : ℕ :=
  if b.length < headerLen ∨ headerField (b.take headerLen) 0 4 ≠ magic then 0
  else headerField (b.take headerLen) 40 48

/-- The states of the runs from an empty origin in which every call is allowed; a store may be
dropped and loaded again while cache and medium agree. -/
inductive Reached (allowed : StoreCall N → CachedStore N → Prop) : CachedStore N → Prop
  | new {d : SlotSize} {st : CachedStore N} (hnew : CoordMapStore.new ⟨[], []⟩ d.val = .ok st) :
      Reached allowed st
  | call {c : StoreCall N} {st : CachedStore N} (hst : Reached allowed st) (hc : allowed c st) :
      Reached allowed (c.perform st).2
  | load {d : SlotSize} {st st' : CachedStore N} (hst : Reached allowed st)
      (hsame : cache st = medium st)
      (hload : CoordMapStore.load st.mount.origin d.val = .ok st') : Reached allowed st'

/-- `clear` is called only while the medium records no entries. -/
def Careful (c : StoreCall N) (st : CachedStore N) : Prop :=
  c = .map .clear → recordedCount (medium st) = 0

theorem keeps_program (hc : c ≠ .flush) :
    KeepsStore CachedOrigin.medium (c.program : MapProgram 64 N CachedOrigin (Answer N)) := by
  cases c with
  | map c =>
    cases c with
    | get p => exact (keeps_getPath untouched_medium p).bind fun _ => Keeps.pure _
    | put p v => exact (keeps_putPath untouched_medium p v.val).bind fun _ => Keeps.pure _
    | remove p => exact (keeps_removePath untouched_medium p).bind fun _ => Keeps.pure _
    | clear => exact (keeps_clearChecked untouched_medium).bind fun _ => Keeps.pure _
  | iter => exact ((keeps_entries untouched_medium.reads).comp Prod.fst).bind fun _ => Keeps.pure _
  | len => exact Keeps.get.bind fun _ => Keeps.pure _
  | flush => exact absurd rfl hc

theorem medium_perform (hc : c ≠ .flush) (st : CachedStore N) :
    medium (c.perform st).2 = medium st := by
  rcases answer_cases (keeps_program hc st) with ⟨a, st', hx, hst'⟩ | ⟨e, st', hx, hst'⟩
  · rw [StoreCall.perform, hx]
    exact hst'
  · rw [StoreCall.perform, hx]
    exact hst'

theorem medium_flush (st : CachedStore N) :
    Ensures flush st (fun _ st' => medium st' = cache st') fun _ _ => True := by
  have hany : ∀ {α : Type} (x : MapProgram 64 N CachedOrigin α) (s : CachedStore N),
      Ensures x s (fun _ _ => True) fun _ _ => True := fun _ _ => ⟨fun _ => trivial, fun _ => trivial⟩
  apply (hany _ st).andThen
  intro live st₁ _
  apply (hany _ st₁).andThen
  intro _ st₂ _
  apply (hany _ st₂).andThen
  intro _ st₃ _
  have hflush : Ensures (onMapOrigin (w := 64) (N := N) (Origin.flush (σ := CachedOrigin))) st₃
      (fun _ st' => medium st' = cache st') fun _ _ => True := by
    rw [onMapOrigin, ensures_focus]
    exact ⟨fun h => by cases h; rfl, fun h => by cases h⟩
  apply hflush.andThen
  intro _ st₄ hst₄
  rw [ensures_modify]
  exact hst₄

theorem medium_load {o : CachedOrigin} {d : ℕ} (h : CoordMapStore.load o d = .ok st) :
    medium st = o.medium := by
  rw [CoordMapStore.load] at h
  cases hopen : (loadOrNew o d : Except (Stop BindingError) (Mount N CachedOrigin)) with
  | error e =>
    rw [hopen] at h
    cases h
  | ok mount =>
    rw [hopen] at h
    cases h
    rw [loadOrNew] at hopen
    cases hnew : (TreeStrategy.new d : Except (Stop BindingError) (TreeStrategy N)) with
    | error e =>
      rw [hnew] at hopen
      cases hopen
    | ok strategy =>
      rw [hnew] at hopen
      simp only [bind, Except.bind] at hopen
      cases hload : load (⟨strategy, o⟩ : Mount N CachedOrigin) with
      | error e m =>
        rw [hload] at hopen
        cases hopen
      | ok a m =>
        rw [hload] at hopen
        cases hopen
        exact (keeps_load untouched_medium _).ok hload

theorem recordedCount_of_noHeader {b : Bytes} (h : NoHeader b) : recordedCount b = 0 := if_pos h

theorem recordedCount_eq (hN : N ≤ maxStoreDepth) (h : Sound st)
    (hst : Current st ∨ Unwritten st) : recordedCount (image st.mount) = st.len := by
  cases hst with
  | inl hcur =>
    have hfields := headerFields_headerBytes hN h.loadable.toFieldsFit
    have hroom : ¬(image st.mount).length < headerLen := Nat.not_lt.mpr hcur.room
    have hbytes : (image st.mount).take headerLen = headerBytes (liveFields st) := hcur.bytes
    rw [recordedCount, hbytes, if_neg ?_, hfields.recordCount]
    · rfl
    · intro hor
      exact hor.elim hroom fun hmagic => hmagic hfields.magic
  | inr hnone =>
    obtain ⟨hnone, slot, hfields⟩ := hnone
    rw [recordedCount_of_noHeader hnone]
    exact (congrArg TreeStrategy.recordCount hfields).symm

/-- What the medium holds: the bytes of the store at its last flush, or of the new store. -/
structure Backup (st old : CachedStore N) : Prop where
  sound : Sound old
  header : Current old ∨ Unwritten old
  bytes : cache old = medium st

theorem Backup.reopen (hN : N ≤ maxStoreDepth) {old : CachedStore N} (h : Backup st old)
    {o : CachedOrigin} (ho : o.cache = medium st) (d : SlotSize) :
    ∃ st' : CachedStore N, Reopened o d old st' := by
  have hbytes : ByteOrigin.bytes o = image old.mount := ho.trans h.bytes.symm
  cases h.header with
  | inl hcur => exact h.sound.reopen CachedOrigin.neverFails CachedOrigin.neverFails hN hcur hbytes d
  | inr hnone =>
    exact h.sound.reopen_unwritten CachedOrigin.neverFails CachedOrigin.neverFails hnone hbytes d

theorem Backup.recordedCount (hN : N ≤ maxStoreDepth) {old : CachedStore N} (h : Backup st old) :
    recordedCount (medium st) = old.len := by
  rw [← h.bytes]
  exact recordedCount_eq hN h.sound h.header

theorem Backup.congr {old : CachedStore N} (h : Backup st old) (hm : medium st' = medium st) :
    Backup st' old := ⟨h.sound, h.header, h.bytes.trans hm.symm⟩

/-- What every reached state satisfies: while the store is not buffered, its backup looks like it. -/
def Backed (st : CachedStore N) : Prop :=
  Sound st ∧ ∃ old, Backup st old ∧ (st.dirty = false → view old = view st ∧ old.len = st.len)

theorem backed_new {d : SlotSize} (hnew : CoordMapStore.new ⟨[], []⟩ d.val = .ok st) :
    Backed st := by
  obtain ⟨st', hnew', hst', hnone, horigin⟩ :=
    @sound_new N CachedOrigin _ ⟨[], []⟩ rfl d
  rw [hnew] at hnew'
  cases hnew'
  refine ⟨hst', st, ⟨hst', .inr hnone, ?_⟩, fun _ => ⟨rfl, rfl⟩⟩
  rw [cache, medium, horigin]

theorem backed_flush (h : Backed st) : Backed (StoreCall.flush.perform st).2 := by
  obtain ⟨hst, -⟩ := h
  obtain ⟨st', hflush, hcur, -, -, -⟩ := hst.flush CachedOrigin.neverFails
  have hsound : Sound st' := by
    have := hst.perform CachedOrigin.neverFails .flush
    rwa [hflush] at this
  have hmedium : medium st' = cache st' := by
    obtain ⟨a, s, hx, hs⟩ | ⟨e, s, hx, -⟩ := answer_cases (x := (StoreCall.flush : StoreCall N).program)
        (E := fun _ _ => True) (Q := fun _ s => medium s = cache s)
        ((medium_flush st).andThen fun _ _ hm => ensures_pure.mpr hm)
    · rw [StoreCall.perform, hx] at hflush
      cases hflush
      exact hs
    · rw [StoreCall.perform, hx] at hflush
      cases hflush
  rw [hflush]
  exact ⟨hsound, st', ⟨hsound, .inl hcur, hmedium.symm⟩, fun _ => ⟨rfl, rfl⟩⟩

end Chton.DurableStates
