import Chton.ImageReads
import Chton.StoreRuns

/-!
# Pointer widths

One image is opened and read on a target whose `usize` has 32 bits and on one whose `usize`
has 64. Both descend the tree alike. The offset of a record, its length prefix and the slot
size are cast to `usize` before `read_record` compares them, so the targets only agree if the
casts change nothing, or if the checks refuse the values with the casts and without.
-/

namespace Chton.PointerWidths
open OutcomePrograms CallRuns ByteRegions LittleEndianWords Origins TreeStrategyProgram
open CoordMapProgram StoreLayouts LayoutImages MapUpdates StoreReopening MemoryOrigins ImageReads
open StoreRuns

variable {w N r s : ℕ} {b : Bytes} {d : SlotSize} {p : CoordPath N}

variable (w b d p) in
def outcome : Except (Stop MapError) (Option Bytes) :=
  readBack w (⟨b⟩ : MemoryOrigin w) d.val p

inductive SameOutcome :
    Except (Stop MapError) (Option Bytes) → Except (Stop MapError) (Option Bytes) → Prop where
  | ok (v : Option Bytes) : SameOutcome (.ok v) (.ok v)
  | error (e e' : MapError) : SameOutcome (.error (.err e)) (.error (.err e'))

inductive RecordOutcome (w : ℕ) (b : Bytes) (s r : ℕ) :
    Except (Stop MapError) (Option Bytes) → Prop where
  | value (h : Accepts w b s r) : RecordOutcome w b s r (.ok (some (valueAt w b r)))
  | error (e : MapError) (h : Refuses w b s r) : RecordOutcome w b s r (.error (.err e))
  | panic (cause : Panic) (h : Panics w b s r) : RecordOutcome w b s r (.error (.panic cause))

inductive LookupOutcome (w : ℕ) (b : Bytes) (d : SlotSize) (p : CoordPath N) :
    Except (Stop MapError) (Option Bytes) → Prop where
  | stopped (e : MapError) (h : ∀ f, loadedFields N b d.val = some f → recordOf b p = none) :
      LookupOutcome w b d p (.error (.err e))
  | absent (f : TreeStrategy N) (hf : loadedFields N b d.val = some f)
      (h : recordOf b p = some 0) : LookupOutcome w b d p (.ok none)
  | found (f : TreeStrategy N) (r : ℕ) (x : Except (Stop MapError) (Option Bytes))
      (hf : loadedFields N b d.val = some f) (h : recordOf b p = some r) (hr : r ≠ 0)
      (hx : RecordOutcome w b f.recordSlotSize r x) : LookupOutcome w b d p x

theorem lookupOutcome (hb : b.length < 2 ^ w) (hw : w ≤ 64) (d : SlotSize) (p : CoordPath N) :
    LookupOutcome w b d p (outcome w b d p) := by
  rw [outcome, readBack]
  obtain ⟨st, hload, ⟨hfields, horigin⟩, -⟩ | ⟨e, m, hload, he⟩ :=
    load_cases (w := w) (N := N) d.property.1 (load_reads (⟨b⟩ : MemoryOrigin w))
  · have hdata : dataOf st.mount = b := congrArg MemoryOrigin.data horigin
    have hlen : (dataOf st.mount).length < 2 ^ w := hdata.symm ▸ hb
    have hget := getPath_reads hlen hw rfl p
    rw [hdata] at hget
    rw [hload]
    change LookupOutcome w b d p (answer (getPath p) st).1
    rcases answer_cases hget with ⟨v, st', hx, hv⟩ | ⟨e, st', hx, he⟩
    · rw [hx]
      rcases hv with ⟨hrecord, rfl⟩ | ⟨r, hrecord, hr, haccepts, rfl⟩
      · exact .absent _ hfields hrecord
      · exact .found _ r _ hfields hrecord hr (.value haccepts)
    · rw [hx]
      cases e with
      | err e =>
        cases hrecord : recordOf b p with
        | none => exact .stopped e fun _ _ => hrecord
        | some r =>
          obtain ⟨hr, hrefuses⟩ := he r hrecord
          exact .found _ r _ hfields hrecord hr (.error e hrefuses)
      | panic cause =>
        obtain ⟨r, hrecord, hr, hpanics⟩ := he
        exact .found _ r _ hfields hrecord hr (.panic cause hpanics)
  · rw [hload]
    cases e with
    | err e =>
      apply LookupOutcome.stopped
      intro f hf
      cases he.symm.trans hf
    | panic cause => exact he.elim

/-- The offset of a record, its length prefix and the slot size fit a `usize` of 32 bits. -/
structure Fits (b : Bytes) (s r : ℕ) : Prop where
  offset : r < 2 ^ 32
  slot : s < 2 ^ 32
  length : wordAt b r < 2 ^ 32

theorem lengthAt_of_fits (h : Fits b s r) : lengthAt 32 b r = wordAt b r := by
  rw [lengthAt, asUsize_of_lt h.offset, asUsize_of_lt h.length]

theorem valueAt_of_fits (h : Fits b s r) : valueAt 32 b r = valueAt 64 b r := by
  have hr := h.offset
  have hr' : r < 2 ^ 64 := by omega
  rw [valueAt, valueAt, lengthAt_of_fits h, lengthAt_of_lt hr', asUsize_of_lt hr,
    asUsize_of_lt hr']

/-- Where nothing is cut off, the targets only differ on vectors that 32 bits cannot hold. -/
theorem panics_of_fits (h : Fits b s r) (hs : 8 ≤ s) : Panics 32 b s r ↔ Oversized 32 b s r := by
  rw [Panics, Oversized, lengthAt_of_fits h, asUsize_of_lt h.offset, asUsize_of_lt h.slot]
  omega

theorem same_of_fits (h : Fits b s r) (hs : 8 ≤ s) (hsmall : ¬Oversized 32 b s r)
    {x y : Except (Stop MapError) (Option Bytes)} (hx : RecordOutcome 32 b s r x)
    (hy : RecordOutcome 64 b s r y) : SameOutcome x y := by
  have hlength := lengthAt_of_fits h
  obtain ⟨hr, hslot, hword⟩ := h
  have hr' : r < 2 ^ 64 := by omega
  have hs' : s < 2 ^ 64 := by omega
  have hpanic : ¬Panics 64 b s r := by
    rw [Panics, lengthAt_of_lt hr', asUsize_of_lt hs']
    omega
  have hboth : ¬(Accepts 32 b s r ∧ Refuses 64 b s r) ∧ ¬(Refuses 32 b s r ∧ Accepts 64 b s r) := by
    constructor
    · intro hor
      obtain ⟨⟨h₁, h₂, h₃, h₄⟩, hrefuses⟩ := hor
      rw [hlength, asUsize_of_lt hr] at h₄
      rw [hlength, asUsize_of_lt hslot] at h₂
      rw [asUsize_of_lt hr] at h₁
      rw [Refuses, lengthAt_of_lt hr', asUsize_of_lt hr', asUsize_of_lt hs'] at hrefuses
      omega
    · intro hor
      obtain ⟨hrefuses, ⟨h₁, h₂, h₃, h₄⟩⟩ := hor
      rw [lengthAt_of_lt hr', asUsize_of_lt hr'] at h₄
      rw [lengthAt_of_lt hr', asUsize_of_lt hs'] at h₂
      rw [asUsize_of_lt hr'] at h₁
      rw [Refuses, hlength, asUsize_of_lt hr, asUsize_of_lt hslot] at hrefuses
      omega
  cases hx with
  | value haccepts =>
    cases hy with
    | value haccepts' =>
      rw [valueAt_of_fits ⟨hr, hslot, hword⟩]
      exact .ok _
    | error e hrefuses => exact absurd ⟨haccepts, hrefuses⟩ hboth.1
    | panic cause hpanics => exact absurd hpanics hpanic
  | error e hrefuses =>
    cases hy with
    | value haccepts => exact absurd ⟨hrefuses, haccepts⟩ hboth.2
    | error e' _ => exact .error e e'
    | panic cause hpanics => exact absurd hpanics hpanic
  | panic cause hpanics => exact absurd ((panics_of_fits ⟨hr, hslot, hword⟩ hs).mp hpanics) hsmall

variable (b d p) in
/-- An image is read alike on both targets, and what does not fit is refused. -/
structure Portable : Prop where
  same : SameOutcome (outcome 32 b d p) (outcome 64 b d p)
  refused : ∀ (f : TreeStrategy N) (r : ℕ), loadedFields N b d.val = some f →
    recordOf b p = some r → r ≠ 0 → ¬Fits b f.recordSlotSize r →
    ∃ e, outcome 32 b d p = .error (.err e)

/-- Either nothing is cut off and the prefix is no vector that 32 bits cannot hold, or the
checks refuse the record with the values cut off and with the whole values. -/
def Untruncated (b : Bytes) (s r : ℕ) : Prop :=
  Fits b s r ∧ ¬Oversized 32 b s r ∨ ¬Fits b s r ∧ Refuses 32 b s r ∧ Refuses 64 b s r

theorem RecordOutcome.refuses {e : MapError}
    (h : RecordOutcome w b s r (.error (.err e))) : Refuses w b s r := by
  cases h with
  | error _ hrefuses => exact hrefuses

theorem RecordOutcome.not_panics {x : Except (Stop MapError) (Option Bytes)}
    (h : RecordOutcome w b s r x) (hx : ∀ cause, x ≠ .error (.panic cause)) :
    ¬Panics w b s r := by
  intro hpanics
  cases h with
  | value haccepts => exact hpanics.not_accepts haccepts
  | error _ hrefuses => exact hpanics.not_refuses hrefuses
  | panic cause _ => exact hx cause rfl

theorem RecordOutcome.of_refuses {x : Except (Stop MapError) (Option Bytes)}
    (h : RecordOutcome w b s r x) (hr : Refuses w b s r) : ∃ e, x = .error (.err e) := by
  cases h with
  | value haccepts => exact absurd hr haccepts.not_refuses
  | error e _ => exact ⟨e, rfl⟩
  | panic _ hpanics => exact absurd hr hpanics.not_refuses

theorem LookupOutcome.record {x : Except (Stop MapError) (Option Bytes)} {f : TreeStrategy N}
    (h : LookupOutcome w b d p x) (hf : loadedFields N b d.val = some f)
    (hrecord : recordOf b p = some r) (hr : r ≠ 0) : RecordOutcome w b f.recordSlotSize r x := by
  cases h with
  | stopped e h => exact absurd (hrecord.symm.trans (h f hf)) (Option.some_ne_none r)
  | absent f' hf' h => exact absurd (Option.some.inj (hrecord.symm.trans h)) hr
  | found f' r' _ hf' h' hr' hx =>
    rw [Option.some.inj (hf.symm.trans hf'), Option.some.inj (hrecord.symm.trans h')]
    exact hx

/-- Without a record the targets agree. -/
theorem same_of_no_record {w' : ℕ} {x y : Except (Stop MapError) (Option Bytes)}
    (hx : LookupOutcome w b d p x) (hy : LookupOutcome w' b d p y)
    (hno : ∀ f r, loadedFields N b d.val = some f → recordOf b p = some r → r = 0) :
    SameOutcome x y := by
  cases hx with
  | stopped e h =>
    cases hy with
    | stopped e' _ => exact .error e e'
    | absent f hf h' => exact absurd (h'.symm.trans (h f hf)) (Option.some_ne_none 0)
    | found f r _ hf h' hr _ => exact absurd (hno f r hf h') hr
  | absent f hf h =>
    cases hy with
    | stopped e h' => exact absurd (h.symm.trans (h' f hf)) (Option.some_ne_none 0)
    | absent _ _ _ => exact .ok none
    | found f r _ hf h' hr _ => exact absurd (hno f r hf h') hr
  | found f r _ hf h hr _ => exact absurd (hno f r hf h) hr

theorem SameOutcome.of_error {e : MapError} {y : Except (Stop MapError) (Option Bytes)}
    (h : SameOutcome (.error (.err e)) y) : ∃ e', y = .error (.err e') := by
  cases h with
  | error _ e' => exact ⟨e', rfl⟩

theorem SameOutcome.not_panic {x y : Except (Stop MapError) (Option Bytes)} (h : SameOutcome x y)
    (cause : Panic) : x ≠ .error (.panic cause) := by
  intro hx
  rw [hx] at h
  cases h

/-- The same image, read with both widths, is read alike exactly if the record of the path,
when there is one, is not misread by the casts. -/
theorem portable_iff (hb : b.length < 2 ^ 32) (d : SlotSize) (p : CoordPath N) :
    Portable b d p ↔ ∀ (f : TreeStrategy N) (r : ℕ), loadedFields N b d.val = some f →
      recordOf b p = some r → r ≠ 0 → Untruncated b f.recordSlotSize r := by
  have h32 := lookupOutcome (w := 32) hb (by decide) d p
  have h64 := lookupOutcome (w := 64) (b := b) (hb.trans (by decide)) (by decide) d p
  constructor
  · intro hportable f r hf hrecord hr
    have hx := h32.record hf hrecord hr
    by_cases hfits : Fits b f.recordSlotSize r
    · apply Or.inl
      refine ⟨hfits, fun hover => ?_⟩
      have hs := (slot_of_loaded d.property hf).1
      exact hx.not_panics hportable.same.not_panic ((panics_of_fits hfits hs).mpr hover)
    · obtain ⟨e, he⟩ := hportable.refused f r hf hrecord hr hfits
      have hsame := hportable.same
      rw [he] at hx hsame
      obtain ⟨e', he'⟩ := hsame.of_error
      have hy := h64.record hf hrecord hr
      rw [he'] at hy
      exact .inr ⟨hfits, hx.refuses, hy.refuses⟩
  · intro hcond
    constructor
    · by_cases hsome : ∃ (f : TreeStrategy N) (r : ℕ),
          loadedFields N b d.val = some f ∧ recordOf b p = some r ∧ r ≠ 0
      · obtain ⟨f, r, hf, hrecord, hr⟩ := hsome
        have hx := h32.record hf hrecord hr
        have hy := h64.record hf hrecord hr
        rcases hcond f r hf hrecord hr with ⟨hfits, hsmall⟩ | ⟨-, h₁, h₂⟩
        · exact same_of_fits hfits (slot_of_loaded d.property hf).1 hsmall hx hy
        · obtain ⟨e, he⟩ := hx.of_refuses h₁
          obtain ⟨e', he'⟩ := hy.of_refuses h₂
          rw [he, he']
          exact .error e e'
      · apply same_of_no_record h32 h64
        intro f r hf hrecord
        by_contra hr
        exact hsome ⟨f, r, hf, hrecord, hr⟩
    · intro f r hf hrecord hr hfits
      rcases hcond f r hf hrecord hr with ⟨hfits', -⟩ | ⟨-, hrefuses, -⟩
      · exact absurd hfits' hfits
      · exact (h32.record hf hrecord hr).of_refuses hrefuses

/-- The root node of a store of depth one whose first slot is `r`, and a record behind it. -/
def imageOf (r : ℕ) (record : Bytes) : Bytes :=
  List.replicate (slotAddr rootOffset 0) 0 ++ encode 8 r ++ record

def firstPath : CoordPath 1 := ⟨[0], rfl⟩

def slot16 : SlotSize := ⟨16, by decide⟩

theorem portable_record : Portable (imageOf 1469 (encode 8 1 ++ [7])) slot16 firstPath := by
  have hloaded : loadedFields 1 (imageOf 1469 (encode 8 1 ++ [7])) 16 =
      some (freshFields 1 16) := by decide +kernel
  have hrecord : recordOf (imageOf 1469 (encode 8 1 ++ [7])) firstPath = some 1469 := by
    decide +kernel
  have hword : wordAt (imageOf 1469 (encode 8 1 ++ [7])) 1469 = 1 := by decide +kernel
  apply (portable_iff (by decide +kernel) slot16 firstPath).mpr
  intro f r hf hr _
  rw [← Option.some.inj (hloaded.symm.trans hf), ← Option.some.inj (hrecord.symm.trans hr)]
  apply Or.inl
  rw [Oversized, hword]
  exact ⟨⟨by decide, by decide, by rw [hword]; decide⟩, by decide +kernel⟩

/-- A record offset beyond 2^32 is refused on 64 bits and leads to a record on 32. -/
theorem truncated_offset_is_read :
    outcome 64 (imageOf (2 ^ 32 + 1469) (encode 8 1 ++ [7])) slot16 firstPath =
        .error (.err (.corruptRecord (2 ^ 32 + 1469) "short record header")) ∧
      outcome 32 (imageOf (2 ^ 32 + 1469) (encode 8 1 ++ [7])) slot16 firstPath =
        .ok (some [7]) ∧
      ¬Portable (imageOf (2 ^ 32 + 1469) (encode 8 1 ++ [7])) slot16 firstPath := by
  have h64 : outcome 64 (imageOf (2 ^ 32 + 1469) (encode 8 1 ++ [7])) slot16 firstPath =
      .error (.err (.corruptRecord (2 ^ 32 + 1469) "short record header")) := by decide +kernel
  have h32 : outcome 32 (imageOf (2 ^ 32 + 1469) (encode 8 1 ++ [7])) slot16 firstPath =
      .ok (some [7]) := by decide +kernel
  refine ⟨h64, h32, fun hportable => ?_⟩
  have hsame := hportable.same
  rw [h64, h32] at hsame
  cases hsame

end Chton.PointerWidths
