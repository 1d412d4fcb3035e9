import Chton.ImageUpdates
import Chton.ImageWalks
import Chton.NamedErrors
import Chton.PointerWidths
import Chton.StoreRuns

/-!
# Hostile images

A store is opened over arbitrary bytes on a 64-bit target and called once. It panics where a
word of the image reaches an addition or a vector without a check: a length prefix that the
slot size of the header lets through, a count of records, the end of a new node or record, and
more records than a vector of results can hold. A request of at most `isize::MAX` bytes is taken
to be granted.
-/

namespace Chton.HostileImages
open OutcomePrograms CallRuns ByteRegions LittleEndianWords Origins TreeStrategyProgram
open CoordMapProgram StoreLayouts LayoutImages RecordCalls MapUpdates MemoryOrigins ImageReads
open StoreReopening ResultVectors ImageWalks ImageUpdates NamedErrors StoreRuns
open PointerWidths (slot16 firstPath)

variable {N r s : ℕ} {α : Type} {o : GrowingOrigin 64} {b v : Bytes} {d : SlotSize}
  {z : ElementSizes} {p : CoordPath N}

def Named : Except (Stop MapError) α → Prop
  | .ok _ => True
  | .error (.err e) => MapNamed e
  | .error (.panic _) => False

abbrev MemoryStore (N : ℕ) := CoordMapStore 64 N (GrowingOrigin 64)

variable (o d) in
def opened : Except (Stop MapError) (MemoryStore N) := CoordMapStore.load o d.val

variable (o v d z p) in
/-- `load` returns, and so does every call on the loaded store. -/
structure Returns : Prop where
  load : Named (opened o d : Except (Stop MapError) (MemoryStore N))
  get : ∀ st, opened o d = .ok st → Named (answer (getPath p) st).1
  iter : ∀ st : MemoryStore N, opened o d = .ok st → Named (answer (entriesWithin z) st).1
  count : ∀ st : MemoryStore N, opened o d = .ok st →
    Named (answer (onStrategy countRecords) st).1
  put : ∀ st, opened o d = .ok st → Named (answer (putPath p v) st).1
  remove : ∀ st, opened o d = .ok st → Named (answer (removePath p) st).1

theorem named_iff {x : MapProgram 64 N (GrowingOrigin 64) α} {st : MemoryStore N} {P : Prop}
    (h : PanicsIff x st P) (hx : MapFails x) : Named (answer x st).1 ↔ ¬P := by
  rcases answer_cases (h.and (hx st)) with ⟨a, st', hanswer, hP, -⟩ | ⟨e, st', hanswer, hP, he⟩
  · rw [hanswer]
    exact iff_of_true trivial hP
  · rw [hanswer]
    cases e with
    | err e => exact iff_of_true he hP
    | panic cause => exact iff_of_false id (not_not_intro hP)

/-- No word of the image reaches an addition or a vector that it overruns. -/
structure Harmless (o : GrowingOrigin 64) (z : ElementSizes) (f : TreeStrategy N) (p : CoordPath N)
    (v : Bytes) : Prop where
  lookup : ∀ r, recordOf o.data p = some r → r ≠ 0 → ¬Oversized 64 o.data f.recordSlotSize r
  listing : PushFits 64 z.located (listOf N o.data).found.length
  reserving : (listOf N o.data).whole = true → (listOf N o.data).found.length * z.entry < 2 ^ 63
  reading : (listOf N o.data).whole = true → ∀ pre r post,
    (listOf N o.data).found = pre ++ r :: post → (∀ a ∈ pre, Accepts 64 o.data f.recordSlotSize a) →
      ¬Oversized 64 o.data f.recordSlotSize r
  counting : (tallyOf N o.data).peak < 2 ^ 64
  update : ¬PutOverruns o.data o.capacity f p v

/-- The first record that is not read is the one that panics. -/
theorem reachesPanic_iff {es : List ℕ} (hes : ∀ r ∈ es, r < 2 ^ 64) (hs : 8 ≤ s ∧ s < 2 ^ 64) :
    ReachesPanic 64 b s es ↔ ∃ pre r post, es = pre ++ r :: post ∧
      (∀ a ∈ pre, Accepts 64 b s a) ∧ Oversized 64 b s r := by
  induction es with
  | nil => simp [ReachesPanic]
  | cons e es ih =>
    rw [List.forall_mem_cons] at hes
    rw [ReachesPanic, panics_iff_oversized hes.1 hs, ih hes.2]
    constructor
    · intro h
      rcases h with h | ⟨haccepts, pre, r, post, rfl, hpre, hr⟩
      · exact ⟨[], e, es, rfl, by simp, h⟩
      · exact ⟨e :: pre, r, post, rfl, List.forall_mem_cons.mpr ⟨haccepts, hpre⟩, hr⟩
    · intro h
      obtain ⟨pre, r, post, heq, hpre, hr⟩ := h
      cases pre with
      | nil =>
        cases heq
        exact .inl hr
      | cons a pre =>
        rw [List.forall_mem_cons] at hpre
        cases heq
        exact .inr ⟨hpre.1, pre, r, post, rfl, hpre.2, hr⟩

variable {st : MemoryStore N} {f : TreeStrategy N}

structure Loaded (o : GrowingOrigin 64) (f : TreeStrategy N) (st : MemoryStore N) : Prop where
  origin : st.mount.origin = o
  fields : st.mount.strategy = f
  nodeSize : f.nodeSize = nodeSpan
  slot : 8 ≤ f.recordSlotSize ∧ f.recordSlotSize < 2 ^ 64
  count : st.len = f.recordCount

theorem nodeSize_of_loaded (h : loadedFields N b d.val = some f) :
    f.nodeSize = nodeSpan ∧ f.recordCount < 2 ^ 64 := by
  rw [loadedFields] at h
  split_ifs at h with hno hdepth hslot hbump hfree
  · rw [← Option.some.inj h]
    exact ⟨rfl, Nat.two_pow_pos 64⟩
  · rw [← Option.some.inj h]
    exact ⟨rfl, headerField_lt _ (by norm_num)⟩

/-- `load` returns a store over the image, or the image has no fields to load. -/
theorem opened_cases (o : GrowingOrigin 64) (d : SlotSize) :
    (∃ (st : MemoryStore N) (f : TreeStrategy N), opened o d = .ok st ∧
      loadedFields N o.data d.val = some f ∧ Loaded o f st) ∨
    ∃ e, (opened o d : Except (Stop MapError) (MemoryStore N)) = .error (.err e) ∧ MapNamed e ∧
      loadedFields N o.data d.val = none := by
  have hload := (load_reads (N := N) (d := d.val) o).and (load_fails _)
  obtain ⟨st, hopen, ⟨⟨hfields, horigin⟩, -⟩, hcount, -⟩ | ⟨e, m, hopen, he, hnamed⟩ :=
    load_cases (w := 64) d.property.1 (hload.mono (fun _ _ h => h) fun _ _ h => h)
  · apply Or.inl
    obtain ⟨hsize, hcount'⟩ := nodeSize_of_loaded hfields
    refine ⟨st, _, hopen, hfields, ?_⟩
    exact ⟨horigin, rfl, hsize, slot_of_loaded d.property hfields,
      by rw [hcount, asUsize_of_lt hcount']⟩
  · apply Or.inr
    cases e with
    | err e => exact ⟨_, hopen, hnamed, he⟩
    | panic cause => exact he.elim

/-- Looking a path up reaches a record that panics, in terms of the image. -/
theorem lookup_iff (hs : 8 ≤ s ∧ s < 2 ^ 64) :
    (¬∃ r, recordOf b p = some r ∧ r ≠ 0 ∧ Panics 64 b s r) ↔
      ∀ r, recordOf b p = some r → r ≠ 0 → ¬Oversized 64 b s r := by
  constructor
  · intro h r hr hne hover
    exact h ⟨r, hr, hne, (panics_iff_oversized (recordFrom_lt hr) hs).mpr hover⟩
  · intro h hex
    obtain ⟨r, hr, hne, hpanics⟩ := hex
    exact h r hr hne ((panics_iff_oversized (recordFrom_lt hr) hs).mp hpanics)

section
variable (h : Loaded o f st)
include h

theorem Loaded.data : dataOf st.mount = o.data := congrArg GrowingOrigin.data h.origin

theorem Loaded.capacity : capOf st.mount = o.capacity := congrArg GrowingOrigin.capacity h.origin

theorem Loaded.slotSize : st.recordSlotSize = f.recordSlotSize :=
  congrArg TreeStrategy.recordSlotSize h.fields

theorem get_named (hN : 0 < N) : Named (answer (getPath p) st).1 ↔
    ∀ r, recordOf o.data p = some r → r ≠ 0 → ¬Oversized 64 o.data f.recordSlotSize r := by
  have hlen := data_lt st.mount
  have hpanics := getPath_panics (by omega) le_rfl h.slotSize p
  rw [h.data] at hpanics
  rw [named_iff hpanics (getPath_fails hN p), lookup_iff h.slot]

theorem remove_named (hN : 0 < N) : Named (answer (removePath p) st).1 ↔
    ∀ r, recordOf o.data p = some r → r ≠ 0 → ¬Oversized 64 o.data f.recordSlotSize r := by
  have hpanics := removePath_updates (p := p) h.slotSize
  rw [h.data] at hpanics
  rw [named_iff hpanics (removePath_fails hN p), lookup_iff h.slot]

theorem iter_named : Named (answer (entriesWithin z) st).1 ↔
    ¬EntriesPanic 64 N z o.data f.recordSlotSize := by
  have hlen := data_lt st.mount
  have hpanics := entries_reads z (by omega) le_rfl h.slotSize
  rw [h.data] at hpanics
  exact named_iff hpanics (entries_fails z)

theorem count_named : Named (answer (onStrategy countRecords) st).1 ↔
    (tallyOf N o.data).peak < 2 ^ 64 := by
  have hlen := data_lt st.mount
  have hcounts := countRecords_reads (m := st.mount) (by omega) le_rfl
  rw [h.data] at hcounts
  have hpanics : PanicsIff (onStrategy countRecords) st (2 ^ 64 ≤ (tallyOf N o.data).peak) := by
    apply (onStrategy_spec hcounts).mono
    · intro n st' hn
      exact Nat.not_le.mpr hn.2.2.2
    · intro stop st' hstop
      obtain ⟨-, e, rfl, he⟩ := hstop
      cases e with
      | err e => exact Nat.not_le.mpr he.2
      | panic cause => exact he
  rw [named_iff hpanics (onStrategy_fails (countNode_fails _ _ _)), Nat.not_le]

theorem put_named (hN : 0 < N) (hv : v.length < 2 ^ 63) :
    Named (answer (putPath p v) st).1 ↔ ¬PutOverruns o.data o.capacity f p v := by
  have hpanics := putPath_updates (p := p) h.fields h.nodeSize h.slot h.count hv
  rw [h.data, h.capacity] at hpanics
  exact named_iff hpanics (putPath_fails hN p v)

end

/-- An enumeration that does not panic, clause by clause. -/
theorem listed_iff (hs : 8 ≤ s ∧ s < 2 ^ 64) : ¬EntriesPanic 64 N z b s ↔
    PushFits 64 z.located (listOf N b).found.length ∧
      ((listOf N b).whole = true → (listOf N b).found.length * z.entry < 2 ^ 63) ∧
      ((listOf N b).whole = true → ∀ pre r post, (listOf N b).found = pre ++ r :: post →
        (∀ a ∈ pre, Accepts 64 b s a) → ¬Oversized 64 b s r) := by
  rw [EntriesPanic, reachesPanic_iff (listOf_lt N b) hs]
  constructor
  · intro h
    refine ⟨not_not.mp fun hfull => h (.inl hfull), fun hwhole => ?_, fun hwhole => ?_⟩
    · exact Nat.lt_of_not_le fun hfull => h (.inr ⟨hwhole, .inl hfull⟩)
    · exact fun pre r post heq hpre hr => h (.inr ⟨hwhole, .inr ⟨pre, r, post, heq, hpre, hr⟩⟩)
  · rintro ⟨hpushed, hreserved, hread⟩ (h | ⟨hwhole, h | ⟨pre, r, post, heq, hpre, hr⟩⟩)
    · exact h hpushed
    · exact Nat.not_lt.mpr h (hreserved hwhole)
    · exact hread hwhole pre r post heq hpre hr

theorem Loaded.named_iff_harmless (h : Loaded o f st) (hN : 0 < N) (hv : v.length < 2 ^ 63) :
    (Named (answer (getPath p) st).1 ∧ Named (answer (entriesWithin z) st).1 ∧
      Named (answer (onStrategy countRecords) st).1 ∧ Named (answer (putPath p v) st).1 ∧
      Named (answer (removePath p) st).1) ↔ Harmless o z f p v := by
  rw [get_named h hN, iter_named h, count_named h, put_named h hN hv, remove_named h hN,
    listed_iff h.slot]
  constructor
  · intro hnamed
    obtain ⟨hlookup, ⟨hlisting, hreserving, hreading⟩, hcounting, hupdate, -⟩ := hnamed
    exact ⟨hlookup, hlisting, hreserving, hreading, hcounting, hupdate⟩
  · intro hf
    exact ⟨hf.lookup, ⟨hf.listing, hf.reserving, hf.reading⟩, hf.counting, hf.update, hf.lookup⟩

theorem returns_of_opened (hopen : opened o d = .ok st) : Returns o v d z p ↔
    Named (answer (getPath p) st).1 ∧ Named (answer (entriesWithin z) st).1 ∧
      Named (answer (onStrategy countRecords) st).1 ∧ Named (answer (putPath p v) st).1 ∧
      Named (answer (removePath p) st).1 := by
  constructor
  · intro h
    exact ⟨h.get st hopen, h.iter st hopen, h.count st hopen, h.put st hopen, h.remove st hopen⟩
  · intro h
    obtain ⟨hget, hiter, hcount, hput, hremove⟩ := h
    have honly {st' : MemoryStore N} (hst' : opened o d = .ok st') : st = st' :=
      Except.ok.inj (hopen.symm.trans hst')
    constructor
    · rw [hopen]
      exact trivial
    · exact fun _ hst' => honly hst' ▸ hget
    · exact fun _ hst' => honly hst' ▸ hiter
    · exact fun _ hst' => honly hst' ▸ hcount
    · exact fun _ hst' => honly hst' ▸ hput
    · exact fun _ hst' => honly hst' ▸ hremove

theorem returns_of_refused {e : MapError}
    (hopen : (opened o d : Except (Stop MapError) (MemoryStore N)) = .error (.err e))
    (he : MapNamed e) : Returns o v d z p := by
  have hnone (st : MemoryStore N) : opened o d ≠ .ok st := by
    intro hst
    rw [hopen] at hst
    cases hst
  constructor
  · rw [hopen]
    exact he
  · exact fun st hst => absurd hst (hnone st)
  · exact fun st hst => absurd hst (hnone st)
  · exact fun st hst => absurd hst (hnone st)
  · exact fun st hst => absurd hst (hnone st)
  · exact fun st hst => absurd hst (hnone st)

/-- Exactly the harmless images are read and updated without a panic. -/
theorem returns_iff_harmless (hN : 0 < N) (hv : v.length < 2 ^ 63) (o : GrowingOrigin 64)
    (d : SlotSize) (z : ElementSizes) (p : CoordPath N) :
    Returns o v d z p ↔ ∀ f, loadedFields N o.data d.val = some f → Harmless o z f p v := by
  obtain ⟨st, f, hopen, hfields, hloaded⟩ | ⟨e, hopen, he, hfields⟩ := opened_cases (N := N) o d
  · rw [returns_of_opened hopen, hloaded.named_iff_harmless hN hv]
    constructor
    · intro hharmless f' hf'
      rw [← Option.some.inj (hfields.symm.trans hf')]
      exact hharmless
    · exact fun hharmless => hharmless f hfields
  · apply iff_of_true (returns_of_refused hopen he)
    intro f hf
    cases hfields.symm.trans hf

/-- A store of depth one with the record `[7]` under its first coordinate. -/
def recordImage : Bytes :=
  setSlot (headerBytes (⟨16, rootEnd, absent, nodeSpan, 1⟩ : TreeStrategy 1)) rootOffset 0 1469 ++
    (encode 8 1 ++ [7])

def recordOrigin : GrowingOrigin 64 := .withBytes recordImage (by decide +kernel)

/-- A byte of which only the lowest bit is set has no bit of a later slot. -/
theorem first_bit {rest : ℕ} (index : Coord) (h : index ≠ 0) :
    peek ((1 : UInt8) :: List.replicate rest 0) (index.val / 8) &&& bitOf index = 0 := by
  have hbits : ∀ k < 8, k ≠ 0 → (1 : UInt8) &&& 1 <<< UInt8.ofNat k = 0 := by decide
  have hpos : index.val ≠ 0 := fun hzero => h (Fin.ext hzero)
  cases hbyte : index.val / 8 with
  | zero =>
    rw [peek, List.getD_cons_zero, bitOf]
    exact hbits (index.val % 8) (Nat.mod_lt _ (by decide)) (by omega)
  | succ n =>
    have hzero : peek ((1 : UInt8) :: List.replicate rest 0) (n + 1) = 0 := by
      rw [peek, List.getD_cons_succ, List.getD_eq_getElem?_getD, List.getElem?_replicate]
      split_ifs
      · rfl
      · rfl
    rw [hzero, UInt8.zero_and]

theorem recordImage_returns :
    readBack 64 recordOrigin 16 firstPath = .ok (some [7]) ∧
      Returns recordOrigin [8] slot16 ⟨16, 32⟩ firstPath := by
  have hread : readBack 64 recordOrigin 16 firstPath = .ok (some [7]) := by decide +kernel
  refine ⟨hread, (returns_iff_harmless Nat.one_pos (by decide) recordOrigin slot16 _ _).mpr ?_⟩
  have hloaded : loadedFields 1 recordImage 16 = some ⟨16, rootEnd, absent, nodeSpan, 1⟩ := by
    decide +kernel
  have hrecord : recordOf recordImage firstPath = some 1469 := by decide +kernel
  have hword : wordAt recordImage 1469 = 1 := by decide +kernel
  have hsmall : ¬Oversized 64 recordImage 16 1469 := by
    rw [Oversized, hword]
    exact fun h => absurd h.2.2 (by decide)
  have hbitmap : bitmapAt recordImage rootOffset = some (1 :: List.replicate 1396 0) := by
    decide +kernel
  have hslot : slotAt recordImage (slotAddr rootOffset 0) = some 1469 := by decide +kernel
  have hentry : entryAt recordImage (1 :: List.replicate 1396 0) rootOffset 0 = .present 1469 := by
    rw [entryAt, hslot]
    rfl
  have hlist : listOf 1 recordImage = ⟨[1469], true⟩ := by
    rw [listOf, walkNode_first hbitmap first_bit, hentry]
    rfl
  have htally : tallyOf 1 recordImage = ⟨some 1, 1⟩ := by
    rw [tallyOf, walkNode_first hbitmap first_bit, hentry]
    rfl
  have hdescent : descend recordImage 1478 rootEnd rootOffset firstPath.coords =
      .reached recordImage 1478 rootEnd rootOffset 0 1469 := by decide +kernel
  have hlength : recordImage.length = 1478 := by decide +kernel
  have hdata : recordOrigin.data = recordImage := rfl
  have hcap : recordOrigin.capacity = recordImage.length := rfl
  intro f hf
  rw [hdata] at hf
  rw [← Option.some.inj (hloaded.symm.trans hf)]
  constructor
  · intro r hr _
    rw [hdata] at hr ⊢
    rw [← Option.some.inj (hrecord.symm.trans hr)]
    exact hsmall
  · rw [hdata, hlist]
    decide
  · rw [hdata, hlist]
    exact fun _ => by decide
  · rw [hdata, hlist]
    intro _ pre r post hfound _
    have hr : r ∈ pre ++ r :: post := List.mem_append_right pre List.mem_cons_self
    rw [← hfound] at hr
    rw [List.mem_singleton.mp hr]
    exact hsmall
  · rw [hdata, htally]
    decide
  · rw [hdata, hcap, PutOverruns, hlength, hdescent]
    intro hover
    obtain ⟨-, hover | ⟨-, hover⟩⟩ := hover
    · exact hsmall hover
    · rw [WriteOverruns] at hover
      exact absurd hover (by decide)

/-- A header with a slot size near 2^64, and a record whose prefix is the entry count. -/
def hostileImage : Bytes :=
  setSlot (headerBytes (⟨2 ^ 64 - 1, rootEnd, absent, nodeSpan, 2 ^ 63⟩ : TreeStrategy 1))
    rootOffset 0 40

def hostileOrigin : GrowingOrigin 64 := .withBytes hostileImage (by decide +kernel)

/-- `read_record` asks for a vector of 2^63 bytes. -/
theorem hostileImage_panics :
    readBack 64 hostileOrigin 16 firstPath = .error (.panic .capacity) ∧
      ¬Returns hostileOrigin [] slot16 ⟨16, 32⟩ firstPath := by
  have hpanics : readBack 64 hostileOrigin 16 firstPath = .error (.panic .capacity) := by
    decide +kernel
  refine ⟨hpanics, fun hreturns => ?_⟩
  obtain ⟨st, f, hopen, -, -⟩ | ⟨e, hopen, -, -⟩ := opened_cases (N := 1) hostileOrigin slot16
  · have hget := hreturns.get st hopen
    have hload : CoordMapStore.load hostileOrigin 16 = .ok st := hopen
    rw [readBack, hload] at hpanics
    have hpanics : (answer (getPath firstPath) st).1 = .error (.panic .capacity) := hpanics
    rw [hpanics] at hget
    exact hget
  · have hload : (CoordMapStore.load hostileOrigin 16 :
        Except _ (MemoryStore 1)) = .error (.err e) := hopen
    rw [readBack, hload] at hpanics
    cases hpanics

end Chton.HostileImages
