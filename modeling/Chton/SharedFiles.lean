import Chton.FileBatches
import Chton.SharedCells

/-!
# File channels shared by threads

Reads, writes, listings and deletes borrow the store of a channel once. A batch borrows it
once for each operation, then to look at the buffer, and then to flush it; other threads may
come in between. Whatever the threads of a process do on its channels, the replies are those
of one flat key-space for each channel, used by one call at a time.
-/

namespace Chton.SharedFiles
open OutcomePrograms CallRuns ByteRegions Origins TreeStrategyProgram CoordMapProgram
open StoreRuns MapServices StoreSpans FileNames FileStores FileBatches RecoverableStores KeyedMaps
open CellGuards SharedCells

inductive Section where
  | file (c : FileCall)
  | isBuffered
  | flush

inductive SectionReply where
  | file (r : FileReply)
  | buffered (b : Bool)
  | flushed (r : Except (Stop IoError) Unit)

def Section.kind : Section → Kind
  | .file (.read _) => .shared
  | .file (.list _) => .shared
  | .isBuffered => .shared
  | _ => .exclusive

section
variable {N : ℕ} {σ : Type} [Origin σ] (byteCoord : UInt8 → Coord)

def Section.perform : Section → CoordMapStore 64 N σ → SectionReply × CoordMapStore 64 N σ
  | .file c, st => (.file (c.perform byteCoord st).1, (c.perform byteCoord st).2)
  | .isBuffered, st => (.buffered st.isBuffered, st)
  | .flush, st =>
    (.flushed (answer (onMap CoordMapProgram.flush) st).1,
      (answer (onMap CoordMapProgram.flush) st).2)

def channels (K : Type) : Calls K (CoordMapStore 64 N σ) (K × Section) SectionReply where
  cell := Prod.fst
  kind c := c.2.kind
  perform c := c.2.perform byteCoord

end

abbrev History := List (Section × SectionReply)

def WriteOp.call : WriteOp → FileCall
  | .write path data => .write path data
  | .delete path => .delete path

def applied (ops : List WriteOp) : History :=
  ops.map fun op => (.file (WriteOp.call op), .file (.ok .done))

/-- The end of a batch that returned. -/
inductive Settling : History → Prop
  | clean : Settling [(.isBuffered, .buffered false)]
  | flushed : Settling [(.isBuffered, .buffered true), (.flush, .flushed (.ok ()))]

/-- The sections of a batch that returned. -/
def Batch (ops : List WriteOp) (xs : History) : Prop :=
  ∃ tail, Settling tail ∧ xs = applied ops ++ tail

variable {N : ℕ} {σ : Type} {byteCoord : UInt8 → Coord}

section
variable [Origin σ] {st st' : CoordMapStore 64 N σ}

theorem call_ok_iff (op : WriteOp) :
    (WriteOp.call op).perform byteCoord st = (.ok .done, st') ↔
      answer (op.single byteCoord) st = (.ok (), st') := by
  have hprogram : ((WriteOp.call op).program byteCoord : IoProgram N σ FileAnswer) =
      op.single byteCoord >>= fun _ => pure .done := by
    cases op <;> rfl
  rw [FileCall.perform, hprogram]
  rcases hx : answer (op.single byteCoord) st with ⟨r, s⟩
  cases r with
  | ok a =>
    rw [answer_bind hx]
    simp [answer, pure, EStateM.pure]
  | error e =>
    rw [answer_bind_error hx]
    simp

theorem applied_iff (ops : List WriteOp) :
    answer (defaultApplyBatch byteCoord ops) st = (.ok (), st') ↔
      Replays (Section.perform byteCoord) st (applied ops) ∧
        replay (Section.perform byteCoord) st (applied ops) = st' := by
  induction ops generalizing st with
  | nil => simp [defaultApplyBatch, applied, answer, pure, EStateM.pure]
  | cons op ops ih =>
    have hloop : (defaultApplyBatch byteCoord (op :: ops) : IoProgram N σ Unit) =
        op.single byteCoord >>= fun _ => defaultApplyBatch byteCoord ops := rfl
    have hcall {s : CoordMapStore 64 N σ} := @call_ok_iff N σ byteCoord _ st s
    rw [hloop]
    rcases hx : answer (op.single byteCoord) st with ⟨r, s⟩
    cases r with
    | ok a =>
      have hdone := (@hcall s op).mpr hx
      rw [answer_bind hx, ih]
      simp [applied, Section.perform, hdone]
    | error e =>
      rw [answer_bind_error hx]
      have hfail : ((WriteOp.call op).perform byteCoord st).1 ≠ .ok .done := by
        intro hok
        have hdone := (hcall op).mp (Prod.ext hok rfl)
        cases hx.symm.trans hdone
      simp [applied, Section.perform, Ne.symm hfail]

theorem settle_iff : answer settle st = (.ok (), st') ↔ ∃ tail, Settling tail ∧
    Replays (Section.perform byteCoord) st tail ∧
      replay (Section.perform byteCoord) st tail = st' := by
  have hsettle : answer (settle : IoProgram N σ Unit) st =
      if st.isBuffered then answer (onMap CoordMapProgram.flush) st else (.ok (), st) := by
    rw [settle, answer_bind (rfl : answer get st = (.ok st, st))]
    split <;> rfl
  rw [hsettle]
  cases hdirty : st.isBuffered with
  | true =>
    rw [if_pos rfl]
    constructor
    · intro hflush
      refine ⟨_, .flushed, ?_⟩
      simp [Section.perform, hdirty, hflush]
    · intro h
      obtain ⟨tail, htail, hreplies, hstate⟩ := h
      cases htail with
      | clean => simp [Section.perform, hdirty] at hreplies
      | flushed =>
        simp [Section.perform] at hreplies hstate
        exact Prod.ext hreplies.2.symm hstate
  | false =>
    rw [if_neg Bool.false_ne_true]
    constructor
    · intro hsame
      cases hsame
      refine ⟨_, .clean, ?_⟩
      simp [Section.perform, hdirty]
    · intro h
      obtain ⟨tail, htail, hreplies, hstate⟩ := h
      cases htail with
      | clean =>
        simp [Section.perform] at hstate
        rw [hstate]
      | flushed => simp [Section.perform, hdirty] at hreplies

/-- A batch that nobody interrupts goes through its sections. -/
theorem batch_iff (ops : List WriteOp) : answer (applyBatch byteCoord ops) st = (.ok (), st') ↔
    ∃ xs, Batch ops xs ∧ Replays (Section.perform byteCoord) st xs ∧
      replay (Section.perform byteCoord) st xs = st' := by
  have happlied := @applied_iff N σ byteCoord _ st
  have hsettle (s : CoordMapStore 64 N σ) := @settle_iff N σ byteCoord _ s st'
  rw [applyBatch_eq]
  constructor
  · intro hbatch
    rcases hx : answer (defaultApplyBatch byteCoord ops) st with ⟨r, s⟩
    cases r with
    | ok a =>
      obtain ⟨hreplies, rfl⟩ := (happlied ops).mp hx
      rw [answer_bind hx] at hbatch
      obtain ⟨tail, htail, hreplies', hstate⟩ := (hsettle _).mp hbatch
      refine ⟨_, ⟨tail, htail, rfl⟩, replays_append.mpr ⟨hreplies, hreplies'⟩, ?_⟩
      rw [replay_append, hstate]
    | error e =>
      rw [answer_bind_error hx] at hbatch
      cases hbatch
  · intro h
    obtain ⟨xs, ⟨tail, htail, rfl⟩, hreplies, hstate⟩ := h
    obtain ⟨hreplies, hreplies'⟩ := replays_append.mp hreplies
    rw [replay_append] at hstate
    rw [answer_bind ((happlied ops).mpr ⟨hreplies, rfl⟩)]
    exact settle_iff.mpr ⟨tail, htail, hreplies', hstate⟩

end

def afterSection (files : Files) (x : Section × SectionReply) : Files :=
  match x with
  | (.file c, .file r) => files.after (c, r)
  | _ => files

def filesAfter (files : Files) (xs : History) : Files := xs.foldl afterSection files

abbrev filesOf (xs : History) : Files := filesAfter (fun _ => none) xs

theorem filesAfter_append (files : Files) (xs : History) (x : Section × SectionReply) :
    filesAfter files (xs ++ [x]) = afterSection (filesAfter files xs) x := List.foldl_concat _ _ _ _

variable [ByteOrigin σ] {slot : ℕ} {st : CoordMapStore 64 N σ} {files : Files}

theorem section_keeps (hfail : NeverFails σ) (hinj : Function.Injective byteCoord) (hN : 0 < N)
    (hN' : N ≤ maxIoDepth) (h : Keeps byteCoord slot st files) (x : Section) :
    Keeps byteCoord slot (x.perform byteCoord st).2
      (afterSection files (x, (x.perform byteCoord st).1)) := by
  cases x with
  | file c => exact perform_keeps hfail hinj hN hN' h c
  | isBuffered => exact h
  | flush =>
    obtain ⟨st', hanswer, hst'⟩ := keeps_flush hfail hN h
    rw [Section.perform, hanswer]
    exact hst'

theorem replay_keeps (hfail : NeverFails σ) (hinj : Function.Injective byteCoord) (hN : 0 < N)
    (hN' : N ≤ maxIoDepth) (h : Keeps byteCoord slot st files) {xs : History}
    (hxs : Replays (Section.perform byteCoord) st xs) :
    Keeps byteCoord slot (replay (Section.perform byteCoord) st xs) (filesAfter files xs) := by
  refine hxs.induct (R := fun xs st => Keeps byteCoord slot st (filesAfter files xs)) h ?_
  intro ys x st hst
  rw [filesAfter_append]
  exact section_keeps hfail hinj hN hN' hst x

def Section.call? : Section → Option FileCall
  | .file c => some c
  | _ => none

/-- The places of the files that a history wrote, refused writes included. -/
def placesIn (byteCoord : UInt8 → Coord) (N : ℕ) (xs : History) : List (CoordPath N) :=
  placesOf byteCoord N (xs.filterMap fun x => x.1.call?)

theorem section_spans (hfail : NeverFails σ) (hN : 0 < N) {ps : List (CoordPath N)}
    (h : Spans slot ps st) (x : Section) : Spans slot
      (ps ++ placesOf byteCoord N x.call?.toList) (x.perform byteCoord st).2 := by
  cases x with
  | file c => exact perform_spans hfail hN h c
  | isBuffered =>
    change Spans slot (ps ++ []) st
    rwa [List.append_nil]
  | flush =>
    change Spans slot (ps ++ []) (answer (onMap CoordMapProgram.flush) st).2
    rw [List.append_nil]
    apply ensures_answer.mp
    refine Preserves.focus ?_ _ st h
    exact fun st h => spans_program hfail hN h .flush (fun _ => .done) rfl

/-- A history takes no more room than the files that it wrote need. -/
theorem replay_spans (hfail : NeverFails σ) (hN : 0 < N)
    (h : Spans slot ([] : List (CoordPath N)) st) {xs : History}
    (hxs : Replays (Section.perform byteCoord) st xs) :
    Spans slot (placesIn byteCoord N xs) (replay (Section.perform byteCoord) st xs) := by
  refine hxs.induct (R := fun xs st => Spans slot (placesIn byteCoord N xs) st) h ?_
  intro ys x st hst
  have hnext : Spans slot (placesIn byteCoord N ys ++ placesOf byteCoord N x.call?.toList)
      (x.perform byteCoord st).2 := section_spans hfail hN hst x
  have hplaces (r : SectionReply) : placesIn byteCoord N (ys ++ [(x, r)]) =
      placesIn byteCoord N ys ++ placesOf byteCoord N x.call?.toList := by
    rw [placesIn, List.filterMap_append, placesOf, List.filterMap_append]
    cases x <;> rfl
  rw [hplaces]
  exact hnext

variable {T K : Type} [DecidableEq T] [DecidableEq K]

def sectionsOf (k : K) (es : List (Event T (K × Section) SectionReply)) :
    List (T × Section × SectionReply) :=
  ((log es).filter fun x => x.2.1.1 = k).map fun x => (x.1, x.2.1.2, x.2.2)

/-- What has been done with a channel, by all threads together. -/
def historyOf (k : K) (es : List (Event T (K × Section) SectionReply)) : History :=
  (sectionsOf k es).map Prod.snd

theorem history_replays {data : K → CoordMapStore 64 N σ}
    {es : List (Event T (K × Section) SectionReply)}
    {s : Shared T K (CoordMapStore 64 N σ) (K × Section) SectionReply}
    (h : Sequential (channels byteCoord K) data es s) (k : K) :
    Replays (Section.perform byteCoord) (data k) (historyOf k es) ∧
      s.data k = replay (Section.perform byteCoord) (data k) (historyOf k es) := by
  obtain ⟨hreplies, hstate⟩ := h.onCell k
  have hmap := @replays_map _ (K × Section) _ _ (Section.perform byteCoord) (data k) Prod.snd
    ((logOf (channels (N := N) (σ := σ) byteCoord K) k es).map Prod.snd)
  rw [List.map_map] at hmap
  rw [historyOf, sectionsOf, List.map_map]
  exact ⟨hmap.1.mp hreplies, hstate.trans hmap.2⟩

/-- What the threads of a process see of its channels. -/
structure SharedRun (byteCoord : UInt8 → Coord) (slot : K → ℕ) (data : K → CoordMapStore 64 N σ)
    (es : List (Event T (K × Section) SectionReply))
    (s : Shared T K (CoordMapStore 64 N σ) (K × Section) SectionReply) : Prop where
  /-- The sections run one at a time, each between its call and its return, without a panic. -/
  sequential : Sequential (channels byteCoord K) data es s
  /-- Each call on files is answered as the key-space left by the sections before it answers,
  which takes writes as long as it has room. -/
  replies : ∀ k pre c r post, historyOf k es = pre ++ (.file c, r) :: post →
    ∃ st : CoordMapStore 64 N σ, FileRun byteCoord (slot k) st (filesOf pre) ∧
      HasRoom byteCoord (slot k) (placesIn byteCoord N pre) st ∧
      r = .file (c.perform byteCoord st).1
  files : ∀ k, FileRun byteCoord (slot k) (s.data k) (filesOf (historyOf k es)) ∧
    HasRoom byteCoord (slot k) (placesIn byteCoord N (historyOf k es)) (s.data k)

theorem shared_channels_keep_files (hfail : NeverFails σ) (hinj : Function.Injective byteCoord)
    (hN : 1 ≤ N) (hN' : N ≤ maxIoDepth) {o : K → σ} (ho : ∀ k, ByteOrigin.bytes (o k) = [])
    (d : K → SlotSize) :
    ∃ data : K → CoordMapStore 64 N σ, (∀ k, CoordMapStore.new (o k) (d k).val = .ok (data k)) ∧
      ∀ (es : List (Event T (K × Section) SectionReply)) s,
        SharedCells.Reached (channels byteCoord K) data es s →
          SharedRun byteCoord (fun k => (d k).val) data es s := by
  choose data hnew hback using fun k => backs_new (N := N) hN (ho k) (d k)
  have hstart (k : K) : Keeps byteCoord (d k).val (data k) fun _ => none :=
    ⟨_, hback k, encodes_none⟩
  have hblank (k : K) : Spans (d k).val ([] : List (CoordPath N)) (data k) := by
    obtain ⟨st, hst, hspans⟩ := spans_new (N := N) hN (ho k) (d k)
    cases (hnew k).symm.trans hst
    exact hspans
  refine ⟨data, hnew, ?_⟩
  intro es s hreached
  have hsequential := sequential_of_reached hreached
  have hseen {k : K} {xs : History} (hxs : Replays (Section.perform byteCoord) (data k) xs) :
      FileRun byteCoord (d k).val (replay (Section.perform byteCoord) (data k) xs) (filesOf xs) ∧
        HasRoom byteCoord (d k).val (placesIn byteCoord N xs)
          (replay (Section.perform byteCoord) (data k) xs) := by
    constructor
    · exact fileRun_of_keeps hfail hinj hN hN' (replay_keeps hfail hinj hN hN' (hstart k) hxs)
    · exact hasRoom_of_spans hfail hN (replay_spans hfail hN (hblank k) hxs)
  constructor
  · exact hsequential
  · intro k pre c r post hsplit
    obtain ⟨hreplies, -⟩ := history_replays hsequential k
    rw [hsplit, replays_append, replays_cons] at hreplies
    obtain ⟨hpre, hr, -⟩ := hreplies
    exact ⟨_, (hseen hpre).1, (hseen hpre).2, hr⟩
  · intro k
    obtain ⟨hreplies, hstate⟩ := history_replays hsequential k
    rw [hstate]
    exact hseen hreplies

/-- Four threads on two channels of depth 16. -/
theorem shared_channels_keep_files_ideal :
    ∃ data : Bool → CoordMapStore 64 16 IdealOrigin,
      (∀ k, CoordMapStore.new ⟨[]⟩ 512 = .ok (data k)) ∧
        ∀ (es : List (Event (Fin 4) (Bool × Section) SectionReply)) s,
          SharedCells.Reached (channels indexCoord Bool) data es s →
            SharedRun indexCoord (fun _ => 512) data es s :=
  shared_channels_keep_files IdealOrigin.neverFails indexCoord_injective (by decide) (by decide)
    (o := fun _ => ⟨[]⟩) (fun _ => rfl) fun _ => ⟨512, by decide⟩

end Chton.SharedFiles
