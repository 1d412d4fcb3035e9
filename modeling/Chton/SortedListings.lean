import Chton.FileBatches
import Mathlib.Data.List.Shortlex

/-!
# Listings in order

The key of a name starts with its length, so a walk over the map meets the names by length and
then byte by byte. What a channel lists is therefore decided by what it can read: calls of the
past, the depth, the slot size and the origin do not show. Pages are cut from the listing.
-/

namespace Chton.SortedListings
open OutcomePrograms CallRuns ByteRegions Origins TextBytes TreeStrategyProgram CoordMapProgram
open StoreLayouts StoreLayouts.Layout MapCalls LayoutContents Enumerations KeyedMaps StoreRuns
open MapServices FileNames FileStores FileBatches PrefixTreeTraversals

/-- `FileIo::list_page`, which no channel here overrides. -/
def listPage {m : Type → Type} [Monad m] (list : String → m (List String)) (pre : String)
    (cursor : Option Bytes) (_max : ℕ) : m (List String × Option Bytes) := do
  if cursor.isSome then
    pure ([], none)
  else
    let keys ← list pre
    pure (keys, none)

/-- At most `n` pages from a cursor on, each with the token of the one before it. -/
def drawn {m : Type → Type} [Monad m] (page : Option Bytes → m (List String × Option Bytes)) :
    ℕ → Option Bytes → m (List String)
  | 0, _ => pure []
  | n + 1, cursor => do
    let (keys, next) ← page cursor
    match next with
    | none => pure keys
    | some token => do
      let rest ← drawn page n (some token)
      pure (keys ++ rest)

/-- Whatever the size of a page, the pages are the listing. -/
theorem drawn_listPage {m : Type → Type} [Monad m] [LawfulMonad m]
    (list : String → m (List String)) (pre : String) (max n : ℕ) :
    drawn (fun cursor => listPage list pre cursor max) (n + 1) none = list pre := by
  simp [drawn, listPage]

/-- Shorter names come first, names of one length in byte order. -/
def Before (a b : String) : Prop := List.Shortlex (· < ·) (asBytes a) (asBytes b)

instance : Std.Asymm Before where
  asymm a b hab hba := by
    rw [Before, List.shortlex_def] at hab hba
    rcases hab with hlt | ⟨hlen, hlex⟩
    · rcases hba with hlt' | ⟨hlen', -⟩
      · exact absurd hlt' (asymm hlt)
      · omega
    · rcases hba with hlt' | ⟨-, hlex'⟩
      · omega
      · exact absurd hlex' (asymm hlex)

variable {N : ℕ} {byteCoord : UInt8 → Coord} {a b : String} {p q : CoordPath N}

/-- The coordinates of bytes are ordered as the bytes are. -/
def KeepsOrder (byteCoord : UInt8 → Coord) : Prop := ∀ x y, byteCoord x < byteCoord y ↔ x < y

theorem KeepsOrder.injective (h : KeepsOrder byteCoord) : Function.Injective byteCoord := by
  intro x y hxy
  have hlt : ¬x < y := fun hlt => absurd ((h x y).mpr hlt) (hxy ▸ lt_irrefl _)
  have hgt : ¬y < x := fun hgt => absurd ((h y x).mpr hgt) (hxy ▸ lt_irrefl _)
  rw [UInt8.lt_iff_toNat_lt] at hlt hgt
  exact UInt8.toNat_inj.mp (by omega)

/-- Paths in order are the keys of names in order. -/
theorem before_of_lex (horder : KeepsOrder byteCoord) (hN : N ≤ maxIoDepth)
    (ha : slotOf byteCoord N a = some p) (hb : slotOf byteCoord N b = some q)
    (h : List.Lex (· < ·) p.coords q.coords) : Before a b := by
  obtain ⟨k, hk, rfl⟩ := keyOf_of_slotOf ha
  obtain ⟨l, hl, rfl⟩ := keyOf_of_slotOf hb
  have hlex := lex_of_map horder.injective (fun x y => (horder x y).mp) h
  rw [bytes_of_keyOf hN hk, bytes_of_keyOf hN hl, List.cons_lex_cons_iff] at hlex
  have hlenA := (nameable_of_keyOf hk).length_lt hN
  have hlenB := (nameable_of_keyOf hl).length_lt hN
  rw [UInt8.lt_iff_toNat_lt, ← UInt8.toNat_inj, UInt8.toNat_ofNat_of_lt' hlenA,
    UInt8.toNat_ofNat_of_lt' hlenB] at hlex
  rcases hlex with hlt | ⟨hlen, hlex⟩
  · exact .of_length_lt hlt
  · rw [hlen] at hlex
    exact .of_lex hlen (lex_of_append (fun x => UInt8.lt_irrefl x) hlen hlex)

variable {σ : Type} [ByteOrigin σ] {slot : ℕ} {st : CoordMapStore 64 N σ} {files : Files}

def Present (byteCoord : UInt8 → Coord) (st : CoordMapStore 64 N σ) (name : String) : Prop :=
  ∃ content, (answer (FileStores.read byteCoord name) st).1 = .ok (some content)

structure Listed (byteCoord : UInt8 → Coord) (st : CoordMapStore 64 N σ) : Prop where
  /-- Exactly the files with the prefix, in order. -/
  listing : ∀ pre, ∃ names, (answer (FileStores.list pre) st).1 = .ok names ∧
    names.Pairwise Before ∧ ∀ name, name ∈ names ↔ startsWith name pre ∧ Present byteCoord st name
  /-- Page by page or at once. -/
  paged : ∀ pre max n, (answer (drawn (fun cursor => listPage FileStores.list pre cursor max)
    (n + 1) none) st).1 = (answer (FileStores.list pre) st).1

theorem present_iff (hfail : NeverFails σ) (hN : 0 < N) (hN' : N ≤ maxIoDepth)
    (h : Keeps byteCoord slot st files) (name : String) :
    Present byteCoord st name ↔ files name ≠ none := by
  obtain ⟨f, hback, hfiles⟩ := h
  rw [Present, read_eq hfail hN hback]
  cases hkey : keyOf N name with
  | error e =>
    have hnone : slotOf byteCoord N name = none := by simp [slotOf, hkey, Except.toOption]
    simp [readOf, hkey, hfiles.absent hnone]
  | ok key =>
    have hslot : slotOf byteCoord N name = some (toCoordPath byteCoord key) := by
      simp [slotOf, hkey, Except.toOption]
    have hshort := ((nameable_of_keyOf hkey).length_lt hN').trans (by decide : 256 < 2 ^ 32)
    simp only [readOf, hkey, hfiles.value _ _ hslot]
    cases hfile : files name with
    | none => simp [contentOf]
    | some content => simp [contentOf, decodeValue_encodeValue hshort]

/-- A walk meets the names in order. -/
theorem sorted_names (horder : KeepsOrder byteCoord) (hN : N ≤ maxIoDepth) {f : PathMap N}
    (h : HoldsFiles byteCoord f files) {ps : List (CoordPath N)}
    (hps : ps.Pairwise fun p q => List.Lex (· < ·) p.coords q.coords) (pre : String) :
    (ps.filterMap fun p => (f p).bind (nameOf pre)).Pairwise Before := by
  have hnamed : ∀ p a, (f p).bind (nameOf pre) = some a → slotOf byteCoord N a = some p := by
    intro p a hpa
    obtain ⟨v, hv, hname⟩ := Option.bind_eq_some_iff.mp hpa
    obtain ⟨b, hb⟩ := h.named p (Option.ne_none_iff_exists'.mpr ⟨v, hv⟩)
    rw [h.value b p hb] at hv
    obtain ⟨content, -, rfl⟩ := Option.map_eq_some_iff.mp hv
    rw [nameOf_encodeValue (nameable_of_slotOf hb) hN, Option.ite_none_right_eq_some] at hname
    exact Option.some.inj hname.2 ▸ hb
  apply List.pairwise_filterMap.mpr
  apply hps.imp
  intro p q hlex a ha b hb
  exact before_of_lex horder hN (hnamed p a ha) (hnamed q b hb) hlex

theorem listed_of_keeps (hfail : NeverFails σ) (horder : KeepsOrder byteCoord) (hN : 0 < N)
    (hN' : N ≤ maxIoDepth) (h : Keeps byteCoord slot st files) : Listed byteCoord st := by
  constructor
  · intro pre
    obtain ⟨f, ⟨L, hL, hslot, rfl⟩, hfiles⟩ := h
    have hkeeps : Keeps byteCoord slot st files := ⟨_, ⟨L, hL, hslot, rfl⟩, hfiles⟩
    obtain ⟨names, st', hanswer, hnames, -⟩ :=
      answer_ok (list_spec hfail horder.injective hN hN' hkeeps pre)
    have hlisted := list_eq hfail hN hL pre
    rw [hanswer] at hlisted
    refine ⟨names, congrArg Prod.fst hanswer, ?_, ?_⟩
    · rw [Except.ok.inj hlisted]
      exact sorted_names horder hN' hfiles sorted_livePaths pre
    · intro name
      rw [present_iff hfail hN hN' hkeeps, hnames.mem, and_comm]
  · intro pre max n
    rw [drawn_listPage]

inductive ChannelCall where
  | file (c : FileCall)
  | page (pre : String) (cursor : Option Bytes) (max : ℕ)
  | batch (ops : List WriteOp)
  | isBuffered
  | flush
  | reopen (d : SlotSize)

inductive ChannelReply where
  | file (r : FileReply)
  | page (r : Except (Stop IoError) (List String × Option Bytes))
  | done (r : Except (Stop IoError) Unit)
  | buffered (b : Bool)

def ChannelCall.perform (byteCoord : UInt8 → Coord) (c : ChannelCall) (st : CoordMapStore 64 N σ) :
    ChannelReply × CoordMapStore 64 N σ :=
  match c with
  | .file c => (c.perform byteCoord st).map .file id
  | .page pre cursor max => (answer (listPage FileStores.list pre cursor max) st).map .page id
  | .batch ops => (answer (applyBatch byteCoord ops) st).map .done id
  | .isBuffered => (.buffered st.isBuffered, st)
  | .flush => (answer (onMap CoordMapProgram.flush) st).map .done id
  | .reopen d => (answer (onMap (StoreRuns.reopen d)) st).map .done id

def after (byteCoord : UInt8 → Coord) (cs : List ChannelCall) (st : CoordMapStore 64 N σ) :
    CoordMapStore 64 N σ := (run (ChannelCall.perform byteCoord) cs st).2

def Filed (byteCoord : UInt8 → Coord) (slot : ℕ) (st : CoordMapStore 64 N σ) : Prop :=
  ∃ files, Keeps byteCoord slot st files

theorem filed_call (hfail : NeverFails σ) (hinj : Function.Injective byteCoord) (hN : 0 < N)
    (hN' : N ≤ maxIoDepth) (h : Filed byteCoord slot st) (c : FileCall) :
    Filed byteCoord slot (c.perform byteCoord st).2 :=
  h.elim fun _ h => ⟨_, perform_keeps hfail hinj hN hN' h c⟩

theorem filed_single (hfail : NeverFails σ) (hinj : Function.Injective byteCoord) (hN : 0 < N)
    (hN' : N ≤ maxIoDepth) (h : Filed byteCoord slot st) (op : WriteOp) :
    Filed byteCoord slot (answer (op.single byteCoord) st).2 := by
  cases op with
  | write path data =>
    have hcall := filed_call hfail hinj hN hN' h (.write path data)
    rw [FileCall.perform, FileCall.program, answer_then] at hcall
    exact hcall
  | delete path =>
    have hcall := filed_call hfail hinj hN hN' h (.delete path)
    rw [FileCall.perform, FileCall.program, answer_then] at hcall
    exact hcall

theorem filed_flush (hfail : NeverFails σ) (hN : 0 < N) (h : Filed byteCoord slot st) :
    Filed byteCoord slot (answer (onMap CoordMapProgram.flush) st).2 := by
  obtain ⟨files, h⟩ := h
  obtain ⟨st', hanswer, hst'⟩ := keeps_flush hfail hN h
  rw [hanswer]
  exact ⟨files, hst'⟩

theorem filed_batch (hfail : NeverFails σ) (hinj : Function.Injective byteCoord) (hN : 0 < N)
    (hN' : N ≤ maxIoDepth) (h : Filed byteCoord slot st) (ops : List WriteOp) :
    Filed byteCoord slot (answer (applyBatch byteCoord ops) st).2 := by
  have hsettle : ∀ s : CoordMapStore 64 N σ, Filed byteCoord slot s →
      Ensures FileBatches.settle s (fun _ s' => Filed byteCoord slot s') fun _ s' => Filed byteCoord slot s' := by
    intro s hs
    rw [FileBatches.settle, ensures_bind, ensures_get]
    apply ensures_ite
    · exact fun _ => ensures_answer.mpr (filed_flush hfail hN hs)
    · exact fun _ => ensures_pure.mpr hs
  have hops : Ensures (defaultApplyBatch byteCoord ops) st (fun _ s => Filed byteCoord slot s)
      fun _ s => Filed byteCoord slot s := by
    rw [defaultApplyBatch]
    apply Ensures.foldlM (fun _ _ s => Filed byteCoord slot s) h
    intro done op rest b s hsplit hs
    exact ensures_answer.mpr (filed_single hfail hinj hN hN' hs op)
  rw [applyBatch_eq]
  exact ensures_answer.mp (hops.bind (fun _ s hs => hsettle s hs) fun _ _ hs => hs)

theorem filed_reopen (hfail : NeverFails σ) (hN : 0 < N) (hN' : N ≤ maxIoDepth)
    (h : Filed byteCoord slot st) (d : SlotSize) :
    Filed byteCoord slot (answer (onMap (StoreRuns.reopen d)) st).2 := by
  obtain ⟨files, f, ⟨L, hL, rfl, rfl⟩, hfiles⟩ := h
  have hdepth : N ≤ maxStoreDepth := hN'.trans (by decide)
  apply ensures_answer.mp
  apply (onMap_spec (reopen_spec hfail hN hdepth hL d)).mono
  · exact fun _ st' hst' => ⟨files, _, ⟨L, hst', rfl, rfl⟩, hfiles⟩
  · exact fun _ _ he => he.elim fun _ he => he.2.elim

theorem filed_perform (hfail : NeverFails σ) (hinj : Function.Injective byteCoord) (hN : 0 < N)
    (hN' : N ≤ maxIoDepth) (h : Filed byteCoord slot st) (c : ChannelCall) :
    Filed byteCoord slot (c.perform byteCoord st).2 := by
  cases c with
  | file c => exact filed_call hfail hinj hN hN' h c
  | page pre cursor max =>
    cases cursor with
    | some token => exact h
    | none =>
      have hcall := filed_call hfail hinj hN hN' h (.list pre)
      rw [FileCall.perform, FileCall.program, answer_then] at hcall
      change Filed byteCoord slot (answer (FileStores.list pre >>= fun keys => pure (keys, none)) st).2
      rw [answer_then]
      exact hcall
  | batch ops => exact filed_batch hfail hinj hN hN' h ops
  | isBuffered => exact h
  | flush => exact filed_flush hfail hN h
  | reopen d => exact filed_reopen hfail hN hN' h d

theorem filed_after (hfail : NeverFails σ) (hinj : Function.Injective byteCoord) (hN : 0 < N)
    (hN' : N ≤ maxIoDepth) (h : Filed byteCoord slot st) (cs : List ChannelCall) :
    Filed byteCoord slot (after byteCoord cs st) := by
  induction cs generalizing st with
  | nil => exact h
  | cons c cs ih => simpa [after] using ih (filed_perform hfail hinj hN hN' h c)

theorem listed_after (hfail : NeverFails σ) (horder : KeepsOrder byteCoord) (hN : 0 < N)
    (hN' : N ≤ maxIoDepth) (h : Backs slot st fun _ => none) (cs : List ChannelCall) :
    Listed byteCoord (after byteCoord cs st) := by
  obtain ⟨files, hfiles⟩ :=
    filed_after hfail horder.injective hN hN' ⟨fun _ => none, _, h, encodes_none⟩ cs
  exact listed_of_keeps hfail horder hN hN' hfiles

section
variable {M : ℕ} {τ : Type} [ByteOrigin τ] {byteCoord' : UInt8 → Coord} {st' : CoordMapStore 64 M τ}

/-- Two channels that can read the same names list the same, in the same order. -/
def ListAlike (byteCoord byteCoord' : UInt8 → Coord) (st : CoordMapStore 64 N σ)
    (st' : CoordMapStore 64 M τ) : Prop :=
  (∀ name, Present byteCoord st name ↔ Present byteCoord' st' name) →
    ∀ pre, (answer (FileStores.list pre) st).1 = (answer (FileStores.list pre) st').1

theorem Listed.alike (h : Listed byteCoord st) (h' : Listed byteCoord' st') :
    ListAlike byteCoord byteCoord' st st' := by
  intro hsame pre
  obtain ⟨names, hnames, hsorted, hmem⟩ := h.listing pre
  obtain ⟨names', hnames', hsorted', hmem'⟩ := h'.listing pre
  have hperm : names.Perm names' := by
    apply (List.perm_ext_iff_of_nodup hsorted.nodup hsorted'.nodup).mpr
    intro name
    rw [hmem, hmem', hsame]
  rw [hnames, hnames', hperm.eq_of_pairwise (fun _ _ _ _ hab hba => absurd hba (asymm hab)) hsorted
    hsorted']

/-- Whatever is done to two channels, each lists the files that it can read by length and then in
byte order, at once or page by page; if they can read the same, they list the same. -/
theorem listings_are_sorted (hfail : NeverFails σ) (hfail' : NeverFails τ)
    (horder : KeepsOrder byteCoord) (horder' : KeepsOrder byteCoord') (hN : 1 ≤ N)
    (hN' : N ≤ maxIoDepth) (hM : 1 ≤ M) (hM' : M ≤ maxIoDepth) {o : σ}
    (ho : ByteOrigin.bytes o = []) {o' : τ} (ho' : ByteOrigin.bytes o' = []) (d d' : SlotSize) :
    ∃ (st : CoordMapStore 64 N σ) (st' : CoordMapStore 64 M τ),
      CoordMapStore.new o d.val = .ok st ∧ CoordMapStore.new o' d'.val = .ok st' ∧
      ∀ cs cs' : List ChannelCall,
        Listed byteCoord (after byteCoord cs st) ∧ Listed byteCoord' (after byteCoord' cs' st') ∧
        ListAlike byteCoord byteCoord' (after byteCoord cs st) (after byteCoord' cs' st') := by
  obtain ⟨st, hnew, hback⟩ := backs_new (N := N) hN ho d
  obtain ⟨st', hnew', hback'⟩ := backs_new (N := M) hM ho' d'
  refine ⟨st, st', hnew, hnew', fun cs cs' => ?_⟩
  have hlisted := listed_after hfail horder hN hN' hback cs
  have hlisted' := listed_after hfail' horder' hM hM' hback' cs'
  exact ⟨hlisted, hlisted', hlisted.alike hlisted'⟩

end

theorem keepsOrder_indexCoord : KeepsOrder indexCoord := by
  intro x y
  rw [Fin.lt_def, val_indexCoord, val_indexCoord, UInt8.lt_iff_toNat_lt]

/-- A channel for short names and one for long names. -/
theorem listings_are_sorted_depths :
    ∃ (st : CoordMapStore 64 8 IdealOrigin) (st' : CoordMapStore 64 256 IdealOrigin),
      CoordMapStore.new ⟨[]⟩ 64 = .ok st ∧ CoordMapStore.new ⟨[]⟩ 512 = .ok st' ∧
      ∀ cs cs' : List ChannelCall,
        Listed indexCoord (after indexCoord cs st) ∧ Listed indexCoord (after indexCoord cs' st') ∧
        ListAlike indexCoord indexCoord (after indexCoord cs st) (after indexCoord cs' st') :=
  listings_are_sorted IdealOrigin.neverFails IdealOrigin.neverFails keepsOrder_indexCoord
    keepsOrder_indexCoord (by decide) (by decide) (by decide) (by decide) rfl rfl ⟨64, by decide⟩
    ⟨512, by decide⟩

end Chton.SortedListings
