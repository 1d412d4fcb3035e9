import Chton.FileStores
import Chton.RecoverableStores

/-!
# Batches of writes and deletes

`CoordMapStoreIo` applies a batch with a loop of its own and flushes the buffer once at
the end. The loop does what the operations do one at a time, the flush changes nothing
that can be read, and what the batch leaves is found again by `load`.
-/

namespace Chton.FileBatches
open OutcomePrograms CallRuns ByteRegions Origins TextBytes TreeStrategyProgram CoordMapProgram
open StoreLayouts StoreLayouts.Layout MapCalls LayoutContents Enumerations KeyedMaps StoreRuns
open MapServices FileNames FileStores SoundStores RecoverableStores

inductive WriteOp where
  | write (path : String) (data : Value)
  | delete (path : String)

section
variable {N : ℕ} {σ : Type} [Origin σ] (byteCoord : UInt8 → Coord)

/-- The operations of the channel, one at a time. -/
def WriteOp.single : WriteOp → IoProgram N σ Unit
  | .write path data => FileStores.write byteCoord path data.val
  | .delete path => FileStores.delete byteCoord path

def defaultApplyBatch (ops : List WriteOp) : IoProgram N σ Unit :=
  ops.foldlM (fun _ op => op.single byteCoord) ()

/-- The two arms of the loop in `CoordMapStoreIo::apply_batch`. -/
def WriteOp.inBatch : WriteOp → IoProgram N σ Unit
  | .write path data => do
    let key ← onResult .key (keyOf N path)
    withCapacity 64 1 (4 + (asBytes path).length + data.val.length)
    let _ ← onMap (putPath (toCoordPath byteCoord key) (encodeValue path data.val))
    pure ()
  | .delete path => do
    let key ← onResult .key (keyOf N path)
    let _ ← onMap (removePath (toCoordPath byteCoord key))
    pure ()

/-- `if self.is_buffered() { self.flush().await? }`. -/
def settle : IoProgram N σ Unit := do
  let st ← get
  if st.isBuffered then onMap flush else pure ()

def applyBatch (ops : List WriteOp) : IoProgram N σ Unit := do
  ops.foldlM (fun _ op => op.inBatch byteCoord) ()
  settle

theorem applyBatch_eq (ops : List WriteOp) :
    (applyBatch byteCoord ops : IoProgram N σ Unit) =
      defaultApplyBatch byteCoord ops >>= fun _ => settle := by
  have hop : ∀ op : WriteOp,
      (op.inBatch byteCoord : IoProgram N σ Unit) = op.single byteCoord := by
    intro op
    cases op <;> rfl
  rw [applyBatch, defaultApplyBatch]
  simp only [hop]

end

variable {N : ℕ} {σ : Type} [ByteOrigin σ] {byteCoord : UInt8 → Coord} {slot : ℕ}
  {st st' : CoordMapStore 64 N σ} {f : PathMap N}

def contentOf : Option Bytes → Except (Stop IoError) (Option Bytes)
  | none => .ok none
  | some value =>
    match decodeValue value with
    | .error e => .error (.err (.value e))
    | .ok file => .ok (some file.2)

def readOf (byteCoord : UInt8 → Coord) (f : PathMap N) (path : String) :
    Except (Stop IoError) (Option Bytes) :=
  match keyOf N path with
  | .error e => .error (.err (.key e))
  | .ok key => contentOf (f (toCoordPath byteCoord key))

theorem read_eq (hfail : NeverFails σ) (hN : 0 < N) (h : Backs slot st f) (path : String) :
    (answer (FileStores.read byteCoord path) st).1 = readOf byteCoord f path := by
  have hspec : Ensures (FileStores.read byteCoord path) st
      (fun c _ => readOf byteCoord f path = .ok c ∧ True)
      fun e _ => readOf byteCoord f path = .error e ∧ True := by
    rw [FileStores.read, readOf]
    cases keyOf N path with
    | error e => exact ensures_throw.mpr ⟨rfl, trivial⟩
    | ok key =>
      rw [onResult, pure_bind]
      apply (onMap_spec (getPath_backs hfail hN h _)).bind
      · intro v st' hv
        dsimp only
        rw [← hv.1]
        cases v with
        | none => exact ensures_pure.mpr ⟨rfl, trivial⟩
        | some value =>
          rw [contentOf]
          dsimp only
          cases decodeValue value with
          | error e =>
            rw [onResult, throw_bind, ensures_throw]
            exact ⟨rfl, trivial⟩
          | ok file =>
            rw [onResult, pure_bind, ensures_pure]
            exact ⟨rfl, trivial⟩
      · exact fun e st' he => he.elim fun _ he => he.2.elim
  exact (answer_eq hspec).1

/-- The order of an enumeration is decided by what is enumerated. -/
theorem livePaths_congr {L L' : Layout} (h : L.Valid N) (h' : L'.Valid N)
    (hc : (L.contents : PathMap N) = L'.contents) : livePaths N L = livePaths N L' := by
  have hmem : ∀ p, p ∈ livePaths N L ↔ p ∈ livePaths N L' := by
    intro p
    rw [mem_livePaths h.toWired, mem_livePaths h'.toWired, Ne, Ne, ← contents_eq_none,
      ← contents_eq_none, hc]
  have hperm := (List.perm_ext_iff_of_nodup livePaths_nodup livePaths_nodup).mpr hmem
  apply hperm.eq_of_pairwise _ sorted_livePaths sorted_livePaths
  intro p p' _ _ hlt hgt
  exact absurd hgt (asymm hlt)

theorem list_eq (hfail : NeverFails σ) (hN : 0 < N) {L : Layout} (h : Refines st L)
    (pre : String) :
    (answer (FileStores.list pre) st).1 =
      .ok ((livePaths N L).filterMap fun p => (L.contents p).bind (nameOf pre)) := by
  have hspec : Ensures (FileStores.list pre) st
      (fun names _ => names = (livePaths N L).filterMap fun p => (L.contents p).bind (nameOf pre))
      fun _ _ => False := by
    rw [FileStores.list]
    apply (onMap_spec (entries_spec hN h.holds.mount h.synced)).bind
    · intro es st' hes
      rw [hes.1, ensures_pure, entriesOf, List.filterMap_map]
      apply List.filterMap_congr
      intro p hp
      have hlinked := (mem_livePaths h.holds.mount.valid.toWired).mp hp
      rw [contents_linked hlinked]
      rfl
    · intro e st' he
      obtain ⟨e₀, -, he₀⟩ := he
      exact not_faulted hfail he₀
  obtain ⟨names, st', hanswer, rfl⟩ := answer_ok hspec
  rw [hanswer]

/-- Reads and listings that nobody can tell apart. -/
structure SameFiles (byteCoord : UInt8 → Coord) (st st' : CoordMapStore 64 N σ) : Prop where
  read : ∀ path, (answer (FileStores.read byteCoord path) st).1 =
    (answer (FileStores.read byteCoord path) st').1
  list : ∀ pre, (answer (FileStores.list pre) st).1 = (answer (FileStores.list pre) st').1

theorem sameFiles_of_backs (hfail : NeverFails σ) (hN : 0 < N) {slot' : ℕ} (h : Backs slot st f)
    (h' : Backs slot' st' f) : SameFiles byteCoord st st' := by
  constructor
  · intro path
    rw [read_eq hfail hN h, read_eq hfail hN h']
  · intro pre
    obtain ⟨L, hL, -, hf⟩ := h
    obtain ⟨L', hL', -, hf'⟩ := h'
    have hc : (L.contents : PathMap N) = L'.contents := hf.trans hf'.symm
    rw [list_eq hfail hN hL, list_eq hfail hN hL', hc,
      livePaths_congr hL.holds.mount.valid hL'.holds.mount.valid hc]

theorem safe_onResult {α ε : Type} {g : ε → IoError} (r : Except ε α) :
    Safe (onResult g r : IoProgram N σ α) := by
  cases r with
  | ok a => exact safe_pure a
  | error e => exact safe_throw _

theorem safe_onMap {α : Type} {x : MapProgram 64 N σ α} (h : Safe x) :
    Safe (onMap x : IoProgram N σ α) := by
  intro st hst
  apply (onMap_spec (h st hst)).mono
  · exact fun _ _ h' => h'
  · exact fun e st' he => he.elim fun e₀ he => he.2

theorem safe_read (hfail : NeverFails σ) (hN : 0 < N) (path : String) :
    Safe (FileStores.read byteCoord path : IoProgram N σ _) := by
  rw [FileStores.read]
  apply (safe_onResult _).bind
  intro key
  apply (safe_onMap (safe_getPath hfail hN _)).bind
  intro result
  cases result with
  | none => exact safe_pure none
  | some value => exact (safe_onResult _).bind fun file => safe_pure _

theorem safe_list (hfail : NeverFails σ) (hN : 0 < N) (pre : String) :
    Safe (FileStores.list pre : IoProgram N σ _) := by
  rw [FileStores.list]
  exact (safe_onMap (safe_entries hfail hN)).bind fun es => safe_pure _

theorem safe_write (hfail : NeverFails σ) (hN : 0 < N) (path : String) (data : Bytes) :
    Safe (FileStores.write byteCoord path data : IoProgram N σ _) := by
  rw [FileStores.write]
  apply (safe_onResult _).bind
  intro key
  rw [withCapacity_bytes]
  split
  · rw [pure_bind]
    have hlen := length_encodeValue path data
    exact (safe_onMap (safe_putPath hfail hN _ (hlen.trans_lt ‹_›))).bind fun _ => safe_pure ()
  · rw [throw_bind]
    exact safe_throw _

theorem safe_delete (hfail : NeverFails σ) (hN : 0 < N) (path : String) :
    Safe (FileStores.delete byteCoord path : IoProgram N σ _) := by
  rw [FileStores.delete]
  apply (safe_onResult _).bind
  intro key
  exact (safe_onMap (safe_removePath hfail hN _)).bind fun _ => safe_pure ()

theorem safe_single (hfail : NeverFails σ) (hN : 0 < N) (op : WriteOp) :
    Safe (op.single byteCoord : IoProgram N σ Unit) := by
  cases op with
  | write path data => exact safe_write hfail hN path data.val
  | delete path => exact safe_delete hfail hN path

theorem safe_defaultApplyBatch (hfail : NeverFails σ) (hN : 0 < N) (ops : List WriteOp) :
    Safe (defaultApplyBatch byteCoord ops : IoProgram N σ Unit) := by
  intro st h
  rw [defaultApplyBatch]
  refine Ensures.foldlM (fun _ _ st' => Recoverable st') h ?_
  exact fun _ op _ _ st' _ h' => safe_single hfail hN op st' h'

variable (byteCoord) in
/-- The end of a batch empties the buffer and changes nothing that can be read. -/
theorem settle_spec (hfail : NeverFails σ) (hN : 0 < N) (h : Recoverable st) :
    Ensures settle st (fun _ st' => Recoverable st' ∧ st'.dirty = false ∧
      SameFiles byteCoord st st') fun _ _ => False := by
  rw [settle, ensures_bind, ensures_get]
  apply ensures_ite
  · intro _
    obtain ⟨L, hL, -⟩ := h
    apply (onMap_spec (flush_finds hfail hN hL)).mono
    · intro _ st' hflush
      obtain ⟨hst', hfind, hclean⟩ := hflush
      exact ⟨⟨L, hst', fun _ => hfind⟩, hclean,
        sameFiles_of_backs hfail hN ⟨L, hL, rfl, rfl⟩ ⟨L, hst', rfl, rfl⟩⟩
    · exact fun e st' he => he.elim fun _ he => he.2
  · intro hclean
    rw [ensures_pure]
    exact ⟨h, Bool.eq_false_of_not_eq_true hclean, ⟨fun _ => rfl, fun _ => rfl⟩⟩

/-- An operation that fails leaves the contents of the map alone. -/
theorem single_refused (hfail : NeverFails σ) (hN : 0 < N) (h : Backs slot st f) (op : WriteOp) :
    Ensures (op.single byteCoord) st (fun _ _ => True) fun _ st' => Backs slot st' f := by
  cases op with
  | write path data =>
    rw [WriteOp.single, FileStores.write]
    cases keyOf N path with
    | error e =>
      rw [onResult, throw_bind, ensures_throw]
      exact h
    | ok key =>
      rw [onResult, pure_bind, withCapacity_bytes]
      split
      · rw [pure_bind]
        have hlen := length_encodeValue path data.val
        apply (onMap_spec (putPath_backs hfail hN h _ (hlen.trans_lt ‹_›))).bind
        · exact fun _ _ _ => ensures_pure.mpr trivial
        · intro e st' he
          obtain ⟨e₀, -, ⟨-, rfl⟩ | ⟨-, -, hback⟩⟩ := he
          · exact h
          · exact hback
      · rw [throw_bind, ensures_throw]
        exact h
  | delete path =>
    rw [WriteOp.single, FileStores.delete]
    cases keyOf N path with
    | error e =>
      rw [onResult, throw_bind, ensures_throw]
      exact h
    | ok key =>
      rw [onResult, pure_bind]
      apply (onMap_spec (removePath_backs hfail hN h _)).bind
      · exact fun _ _ _ => ensures_pure.mpr trivial
      · exact fun e st' he => he.elim fun _ he => he.2.elim

/-- Where a batch fails, the operations before have been applied and the failing one has
changed no contents. -/
structure StoppedAt (byteCoord : UInt8 → Coord) (ops : List WriteOp) (st : CoordMapStore 64 N σ)
    (e : Stop IoError) (st' : CoordMapStore 64 N σ) : Prop where
  stop : ∃ done op rest st₁, ops = done ++ op :: rest ∧
    answer (defaultApplyBatch byteCoord done) st = (.ok (), st₁) ∧
    answer (op.single byteCoord) st₁ = (.error e, st') ∧ SameFiles byteCoord st₁ st'

theorem defaultApplyBatch_concat (done : List WriteOp) (op : WriteOp) :
    (defaultApplyBatch byteCoord (done ++ [op]) : IoProgram N σ Unit) =
      defaultApplyBatch byteCoord done >>= fun _ => op.single byteCoord := by
  simp only [defaultApplyBatch, List.foldlM_append, List.foldlM_cons, List.foldlM_nil, bind_pure]

variable (byteCoord) in
theorem defaultApplyBatch_spec (hfail : NeverFails σ) (hN : 0 < N) (h : Recoverable st)
    (ops : List WriteOp) :
    Ensures (defaultApplyBatch byteCoord ops) st (fun _ st' => Recoverable st')
      (StoppedAt byteCoord ops st) := by
  have hloop : Ensures (defaultApplyBatch byteCoord ops) st
      (fun _ st' => answer (defaultApplyBatch byteCoord ops) st = (.ok (), st') ∧ Recoverable st')
      (StoppedAt byteCoord ops st) := by
    refine Ensures.foldlM (fun done _ st' =>
      answer (defaultApplyBatch byteCoord done) st = (.ok (), st') ∧ Recoverable st') ⟨rfl, h⟩ ?_
    intro done op rest _ st₁ hsplit hdone
    obtain ⟨hanswer, hst₁⟩ := hdone
    have hself : Ensures (op.single byteCoord) st₁
        (fun a st' => answer (op.single byteCoord) st₁ = (.ok a, st'))
        fun e st' => answer (op.single byteCoord) st₁ = (.error e, st') :=
      ⟨answer_of_ok, answer_of_error⟩
    have hst₁' := hst₁
    obtain ⟨L, hL, -⟩ := hst₁'
    have hback : Backs L.slot st₁ L.contents := ⟨L, hL, rfl, rfl⟩
    refine ((hself.and (safe_single hfail hN op st₁ hst₁)).and
      (single_refused hfail hN hback op)).mono ?_ ?_
    · intro _ st' hnext
      obtain ⟨⟨hop, hst'⟩, -⟩ := hnext
      refine ⟨?_, hst'⟩
      rw [defaultApplyBatch_concat, answer_bind hanswer, hop]
    · intro e st' hstop
      obtain ⟨⟨hop, -⟩, hback'⟩ := hstop
      exact ⟨done, op, rest, st₁, hsplit, hanswer, hop, sameFiles_of_backs hfail hN hback hback'⟩
  exact hloop.mono (fun _ _ hdone => hdone.2) fun _ _ hstop => hstop

/-- The stores behind a channel: created or opened over an empty origin, used through the map or
through the channel, flushed and opened again. -/
inductive Channel (byteCoord : UInt8 → Coord) : CoordMapStore 64 N σ → Prop
  | new {o : σ} {s : CoordMapStore 64 N σ} (d : SlotSize) (empty : ByteOrigin.bytes o = [])
    (opened : CoordMapStore.new o d.val = .ok s) : Channel byteCoord s
  | load {o : σ} {s : CoordMapStore 64 N σ} (d : SlotSize) (empty : ByteOrigin.bytes o = [])
    (opened : CoordMapStore.load o d.val = .ok s) : Channel byteCoord s
  | step {s : CoordMapStore 64 N σ} (used : Channel byteCoord s) (x : Step N) :
    Channel byteCoord (x.perform s).2
  | call {s : CoordMapStore 64 N σ} (used : Channel byteCoord s) (c : FileCall) :
    Channel byteCoord (c.perform byteCoord s).2
  | batch {s : CoordMapStore 64 N σ} (used : Channel byteCoord s) (ops : List WriteOp) :
    Channel byteCoord (answer (applyBatch byteCoord ops) s).2

theorem safe_settle (hfail : NeverFails σ) (hN : 0 < N) : Safe (settle : IoProgram N σ Unit) := by
  intro st h
  apply (settle_spec (fun _ => 0) hfail hN h).mono
  · exact fun _ _ h' => h'.1
  · exact fun _ _ hf => hf.elim

theorem keeps_flush (hfail : NeverFails σ) (hN : 0 < N) {files : Files}
    (h : Keeps byteCoord slot st files) :
    ∃ st', answer (onMap CoordMapProgram.flush) st = (.ok (), st') ∧
      Keeps byteCoord slot st' files := by
  obtain ⟨f, ⟨L, hL, rfl, rfl⟩, hfiles⟩ := h
  have hflush : Ensures (onMap CoordMapProgram.flush) st (fun _ st' => Refines st' L)
      fun _ _ => False :=
    (onMap_spec (flush_finds hfail hN hL)).mono (fun _ _ h => h.1) fun _ _ he =>
      he.elim fun _ he => he.2
  obtain ⟨⟨⟩, st', hanswer, hst'⟩ := answer_ok hflush
  exact ⟨st', hanswer, _, ⟨L, hst', rfl, rfl⟩, hfiles⟩

theorem safe_call (hfail : NeverFails σ) (hN : 0 < N) (c : FileCall) :
    Safe (c.program byteCoord : IoProgram N σ _) := by
  cases c with
  | read path => exact (safe_read hfail hN path).bind fun _ => safe_pure _
  | write path data => exact (safe_write hfail hN path data.val).bind fun _ => safe_pure _
  | list pre => exact (safe_list hfail hN pre).bind fun _ => safe_pure _
  | delete path => exact (safe_delete hfail hN path).bind fun _ => safe_pure _

theorem recoverable_of_channel (hfail : NeverFails σ) (hN : 0 < N) (hN' : N ≤ maxStoreDepth)
    (h : Channel byteCoord st) : Recoverable st := by
  induction h with
  | new d empty opened => exact recoverable_new hN empty d opened
  | load d empty opened => exact recoverable_load hfail hN empty d opened
  | step _ x ih => exact (safe_step hfail hN hN' x).answer ih
  | call _ c ih => exact (safe_call hfail hN c).answer ih
  | batch _ ops ih =>
    rw [applyBatch_eq]
    exact ((safe_defaultApplyBatch hfail hN ops).bind fun _ => safe_settle hfail hN).answer ih

/-- A batch compared with the same operations one at a time. -/
structure BatchRun (byteCoord : UInt8 → Coord) (st : CoordMapStore 64 N σ) (ops : List WriteOp) :
    Prop where
  /-- Both return, or both fail with the same error. -/
  reply : (answer (applyBatch byteCoord ops) st).1 = (answer (defaultApplyBatch byteCoord ops) st).1
  /-- Afterwards both read and list the same. -/
  files : SameFiles byteCoord (answer (applyBatch byteCoord ops) st).2
    (answer (defaultApplyBatch byteCoord ops) st).2
  /-- A batch that fails has done what comes before the operation that failed. -/
  stopped : ∀ e st', answer (applyBatch byteCoord ops) st = (.error e, st') →
    StoppedAt byteCoord ops st e st'
  /-- A batch that returns leaves nothing buffered, and its contents are found again. -/
  settled : ∀ st', answer (applyBatch byteCoord ops) st = (.ok (), st') →
    st'.isBuffered = false ∧ ∀ d : SlotSize, ∃ st'' : CoordMapStore 64 N σ,
      CoordMapStore.load st'.mount.origin d.val = .ok st'' ∧ view st'' = view st' ∧
        st''.len = st'.len

theorem batch_agrees (hfail : NeverFails σ) (hN : 1 ≤ N) (hN' : N ≤ maxIoDepth)
    (h : Channel byteCoord st) (ops : List WriteOp) : BatchRun byteCoord st ops := by
  have hdepth : N ≤ maxStoreDepth := hN'.trans (by decide)
  have hst := recoverable_of_channel hfail hN hdepth h
  have hbatch : (applyBatch byteCoord ops : IoProgram N σ Unit) = _ := applyBatch_eq byteCoord ops
  obtain ⟨⟨⟩, st₁, hloop, hst₁⟩ | ⟨e, st₁, hloop, hstop⟩ :=
    answer_cases (defaultApplyBatch_spec byteCoord hfail hN hst ops)
  · obtain ⟨⟨⟩, st₂, hsettle, hst₂, hclean, hfiles⟩ :=
      answer_ok (settle_spec byteCoord hfail hN hst₁)
    have hanswer : answer (applyBatch byteCoord ops) st = (.ok (), st₂) := by
      rw [hbatch, answer_bind hloop, hsettle]
    constructor
    · rw [hanswer, hloop]
    · rw [hanswer, hloop]
      exact ⟨fun path => (hfiles.read path).symm, fun pre => (hfiles.list pre).symm⟩
    · exact fun e st' herror => (nomatch hanswer.symm.trans herror)
    · intro st' hok
      cases hanswer.symm.trans hok
      exact ⟨hclean, fun d => hst₂.load hfail hN hdepth hclean d⟩
  · have hanswer : answer (applyBatch byteCoord ops) st = (.error e, st₁) := by
      rw [hbatch, answer_bind_error hloop]
    constructor
    · rw [hanswer, hloop]
    · rw [hanswer, hloop]
      exact ⟨fun _ => rfl, fun _ => rfl⟩
    · intro e' st' herror
      cases hanswer.symm.trans herror
      exact hstop
    · exact fun st' hok => (nomatch hanswer.symm.trans hok)

/-- A new channel of depth 16 with slots of 512 bytes. -/
theorem batch_agrees_new :
    ∃ st : CoordMapStore 64 16 IdealOrigin, CoordMapStore.new ⟨[]⟩ 512 = .ok st ∧
      ∀ ops : List WriteOp, BatchRun indexCoord st ops := by
  obtain ⟨st, hnew, -⟩ := refines_new (N := 16) (o := (⟨[]⟩ : IdealOrigin)) rfl (by decide)
    ⟨512, by decide⟩
  exact ⟨st, hnew, batch_agrees IdealOrigin.neverFails (by decide) (by decide)
    (.new ⟨512, by decide⟩ rfl hnew)⟩

end Chton.FileBatches
