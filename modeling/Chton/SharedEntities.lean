import Chton.EntityRefusals
import Chton.SharedCells

/-!
# Entity stores shared by threads

A call on a materialized entity store encodes its key and value, borrows the map once, and
decodes what it found after the borrow. Whatever threads share such stores, over any number
of sessions that end with a flush, the replies are those of a hash map that refuses some
insertions; a panic of one thread is a reply like any other to the rest.
-/

namespace Chton.SharedEntities
open OutcomePrograms CallRuns ByteRegions Origins TreeStrategyProgram CoordMapProgram
open StringKeys StoreReopening LayoutContents KeyedMaps StoreRuns MapServices StoreSpans
open EntityStores EntityReference EntitySimulations EntityRooms Replacements EntityRefusals
open CellGuards SharedCells

inductive Use (V : Type) where
  | call (c : EntityCall V)
  | isBuffered
  | flush

inductive UseReply (V : Type) where
  | call (r : EntityReply V)
  | buffered (b : Bool)
  | flushed (r : Except (Stop MapError) Unit)

variable {V σ : Type} {N : ℕ}

def Use.kind : Use V → Kind
  | .call (.get _) => .shared
  | .call (.containsKey _) => .shared
  | .call .len => .shared
  | .call .values => .shared
  | .isBuffered => .shared
  | _ => .exclusive

section
variable [Origin σ] (fromChar : Char → Option Coord) (codec : Codec V)

def Use.perform : Use V → CoordMapStore 64 N σ → UseReply V × CoordMapStore 64 N σ
  | .call c, st =>
    (.call (EntityCall.perform (mapEntityStore N σ fromChar codec) c st).1,
      (EntityCall.perform (mapEntityStore N σ fromChar codec) c st).2)
  | .isBuffered, st => (.buffered st.isBuffered, st)
  | .flush, st =>
    (.flushed (answer CoordMapProgram.flush st).1, (answer CoordMapProgram.flush st).2)

/-- A probe of a key without a path returns, and an insertion that cannot be encoded
panics, before the map is borrowed. -/
def Borrows (N : ℕ) : Use V → Prop
  | .call (.get key) => placeOf fromChar N key ≠ none
  | .call (.remove key) => placeOf fromChar N key ≠ none
  | .call (.containsKey key) => placeOf fromChar N key ≠ none
  | .call (.insert key value) => prepareEntry fromChar N codec (key, value) ≠ none
  | .call (.replaceFrom entries) => prepare fromChar N codec entries ≠ none
  | _ => True

def stores (N : ℕ) (σ : Type) [Origin σ] (K : Type) : Calls K (CoordMapStore 64 N σ)
    (K × {u : Use V // Borrows fromChar codec N u}) (UseReply V) where
  cell := Prod.fst
  kind c := c.2.val.kind
  perform c := c.2.val.perform fromChar codec

end

variable {fromChar : Char → Option Coord} {codec : Codec V}

/-- An entry without an encoding panics whatever would be done with it. -/
theorem encode_throws {τ α : Type} {e : String × V} (h : prepareEntry fromChar N codec e = none) :
    ∃ cause, ∀ f : CoordPath N → Value → EntityProgram τ α,
      (do
        let path ← mapKeyOrPanic fromChar N e.1
        let bytes ← encodeValue codec e.2
        f path bytes) = throw cause := by
  cases hp : placeOf fromChar N e.1 with
  | none =>
    obtain ⟨cause, hcause⟩ := mapKeyOrPanic_none (σ := τ) hp
    exact ⟨cause, fun f => by rw [hcause, throw_bind]⟩
  | some p =>
    cases hb : codec.toAllocvec e.2 with
    | none =>
      refine ⟨.encode, fun f => ?_⟩
      rw [mapKeyOrPanic_eq hp, pure_bind, encodeValue, hb, throw_bind]
    | some b => cases h.symm.trans (prepareEntry_eq_some (x := (p, b)).mpr ⟨hp, hb⟩)

theorem prepare_throws {τ : Type} {entries : List (String × V)}
    (h : prepare fromChar N codec entries = none) :
    ∃ e, (entries.mapM (fun e => do
        let path ← mapKeyOrPanic fromChar N e.1
        let bytes ← encodeValue codec e.2
        pure (path, bytes)) : EntityProgram τ _) = throw e := by
  induction entries with
  | nil => cases h
  | cons e entries ih =>
    rw [List.mapM_cons]
    cases hx : prepareEntry fromChar N codec e with
    | none =>
      obtain ⟨cause, hcause⟩ := encode_throws (τ := τ) hx
      exact ⟨cause, by rw [hcause, throw_bind]⟩
    | some x =>
      obtain ⟨hp, hb⟩ := prepareEntry_eq_some.mp hx
      have hrest : prepare fromChar N codec entries = none := by
        rw [Option.eq_none_iff_forall_ne_some]
        intro xs hxs
        cases h.symm.trans (prepare_cons_iff.mpr ⟨x, xs, hx, hxs, rfl⟩)
      obtain ⟨cause, hcause⟩ := ih hrest
      refine ⟨cause, ?_⟩
      rw [mapKeyOrPanic_eq hp, pure_bind, encodeValue, hb, pure_bind, pure_bind, hcause, throw_bind]

/-- Such a call has its reply whatever is in the store, and leaves the store alone. -/
theorem aside [Origin σ] (hN : 2 ≤ N) {c : EntityCall V}
    (hc : ¬ Borrows fromChar codec N (.call c)) :
    ∃ r, ∀ st : CoordMapStore 64 N σ,
      EntityCall.perform (mapEntityStore N σ fromChar codec) c st = (r, st) := by
  cases c with
  | get key =>
    refine ⟨.ok (.value none), fun st => ?_⟩
    change answer (EntityAnswer.value <$> MapEntityStore.getEntry fromChar codec key) st = _
    rw [MapEntityStore.getEntry, probe_eq hN, pure_bind, not_not.mp hc]
    rfl
  | remove key =>
    refine ⟨.ok (.value none), fun st => ?_⟩
    change answer (EntityAnswer.value <$> MapEntityStore.removeEntry fromChar codec key) st = _
    rw [MapEntityStore.removeEntry, probe_eq hN, pure_bind, not_not.mp hc]
    rfl
  | containsKey key =>
    refine ⟨.ok (.flag false), fun st => ?_⟩
    change answer (EntityAnswer.flag <$> MapEntityStore.containsEntry fromChar key) st = _
    rw [MapEntityStore.containsEntry, probe_eq hN, pure_bind, not_not.mp hc]
    rfl
  | insert key value =>
    obtain ⟨e, he⟩ := encode_throws (τ := CoordMapStore 64 N σ) (α := Option V) (not_not.mp hc)
    refine ⟨.error e, fun st => ?_⟩
    change answer (EntityAnswer.value <$>
      MapEntityStore.insertEntry fromChar codec key value) st = _
    rw [MapEntityStore.insertEntry, he]
    rfl
  | replaceFrom entries =>
    obtain ⟨e, he⟩ := prepare_throws (τ := CoordMapStore 64 N σ) (not_not.mp hc)
    refine ⟨.error e, fun st => ?_⟩
    change answer ((fun _ => EntityAnswer.done) <$>
      MapEntityStore.replaceEntries fromChar codec entries) st = _
    rw [MapEntityStore.replaceEntries, he, throw_bind]
    rfl
  | len => exact absurd trivial hc
  | values => exact absurd trivial hc
  | clear => exact absurd trivial hc

abbrev History (V : Type) := List (Use V × UseReply V)

/-- One use of a hash map that refuses some insertions. -/
inductive Uses (l : Limits V) : Ledger V → Use V × UseReply V → Ledger V → Prop
  | call {t t' : Ledger V} {c : EntityCall V} {r : EntityReply V}
    (h : Serves l t (c, r) t') : Uses l t (.call c, .call r) t'
  | isBuffered (t : Ledger V) (b : Bool) : Uses l t (.isBuffered, .buffered b) t
  | flush (t : Ledger V) : Uses l t (.flush, .flushed (.ok ())) t

variable [ByteOrigin σ] {slot : ℕ} {st : CoordMapStore 64 N σ}

/-- A program that keeps what the map holds and takes no room keeps the books. -/
theorem keeps_books {x : MapProgram 64 N σ Unit} {t : Ledger V}
    (h : Books fromChar codec slot st t)
    (hx : ∀ f, Backs slot st f → Ensures x st (fun _ st' => Backs slot st' f) fun _ _ => False)
    (hspans : ∀ ps, Spans slot ps st → Ensures x st (fun _ st' => Spans slot ps st')
      fun _ _ => True) :
    ∃ st', answer x st = (.ok (), st') ∧ Books fromChar codec slot st' t := by
  obtain ⟨⟨⟨f, hf, hencodes⟩, hstorable⟩, hroom⟩ := h
  have hboth : Ensures x st (fun _ st' => Books fromChar codec slot st' t) fun _ _ => False :=
    ((hx f hf).and (hspans _ hroom)).mono
      (fun _ _ hdone => ⟨⟨⟨f, hdone.1, hencodes⟩, hstorable⟩, hdone.2⟩) fun _ _ he => he.1
  obtain ⟨⟨⟩, st', hanswer, hst'⟩ := answer_ok hboth
  exact ⟨st', hanswer, hst'⟩

theorem flush_backs (hfail : NeverFails σ) {f : PathMap N} (h : Backs slot st f) :
    Ensures CoordMapProgram.flush st (fun _ st' => Backs slot st' f) fun _ _ => False := by
  obtain ⟨L, hL, rfl, rfl⟩ := h
  apply (flush_spec hL.holds).mono
  · intro _ st' hflushed
    exact ⟨L, ⟨hflushed.holds, hflushed.synced hL.synced, hL.whole⟩, rfl, rfl⟩
  · exact fun _ _ hb => not_broken hfail hb

theorem reopen_backs (hfail : NeverFails σ) (hN : 0 < N) (hN' : N ≤ maxStoreDepth)
    {f : PathMap N} (h : Backs slot st f) (d : SlotSize) :
    Ensures (reopen d) st (fun _ st' => Backs slot st' f) fun _ _ => False := by
  obtain ⟨L, hL, rfl, rfl⟩ := h
  exact (reopen_spec hfail hN hN' hL d).mono (fun _ _ hst' => ⟨L, hst', rfl, rfl⟩)
    fun _ _ hf => hf

theorem flush_books (hfail : NeverFails σ) (hN : 0 < N) {t : Ledger V}
    (h : Books fromChar codec slot st t) :
    ∃ st', answer CoordMapProgram.flush st = (.ok (), st') ∧ Books fromChar codec slot st' t := by
  refine keeps_books h (fun _ => flush_backs hfail) fun ps hps => ?_
  exact (spans_program hfail hN hps .flush (fun _ => .done) rfl).mono (fun _ _ hst' => hst')
    fun _ _ _ => trivial

theorem reopen_books (hfail : NeverFails σ) (hN : 0 < N) (hN' : N ≤ maxStoreDepth)
    {t : Ledger V} (h : Books fromChar codec slot st t) (d : SlotSize) :
    ∃ st', answer (reopen d) st = (.ok (), st') ∧ Books fromChar codec slot st' t := by
  refine keeps_books h (fun _ hf => reopen_backs hfail hN hN' hf d) fun ps hps => ?_
  exact (spans_reopen hfail hN hN' hps d).mono (fun _ _ hst' => hst') fun _ _ _ => trivial

theorem use_allowed (hfail : NeverFails σ) (hcodec : RoundTrips codec) (hN : 2 ≤ N)
    (hapart : Apart (placeOf fromChar N)) (u : Use V) (st : CoordMapStore 64 N σ) (t : Ledger V)
    (h : Books fromChar codec slot st t) :
    ∃ t', Uses (mapLimits fromChar N codec slot) t (u, (u.perform fromChar codec st).1) t' ∧
      Books fromChar codec slot (u.perform fromChar codec st).2 t' := by
  cases u with
  | call c =>
    obtain ⟨t', hserves, h'⟩ := map_servesAll hfail hcodec hN hapart c st t h
    exact ⟨t', .call hserves, h'⟩
  | isBuffered => exact ⟨t, .isBuffered t _, h⟩
  | flush =>
    obtain ⟨st', hanswer, h'⟩ := flush_books hfail (Nat.lt_of_lt_of_le Nat.two_pos hN) h
    rw [Use.perform, hanswer]
    exact ⟨t, .flush t, h'⟩

variable {T K : Type} [DecidableEq T] [DecidableEq K]

def usesOf (k : K)
    (es : List (Event T (K × {u : Use V // Borrows fromChar codec N u}) (UseReply V))) :
    History V :=
  ((log es).filter fun x => x.2.1.1 = k).map fun x => (x.2.1.2.val, x.2.2)

theorem uses_replay {data : K → CoordMapStore 64 N σ}
    {es : List (Event T (K × {u : Use V // Borrows fromChar codec N u}) (UseReply V))}
    {s : Shared T K (CoordMapStore 64 N σ) (K × {u : Use V // Borrows fromChar codec N u})
      (UseReply V)} (h : Sequential (stores fromChar codec N σ K) data es s) (k : K) :
    Replays (Use.perform fromChar codec) (data k) (usesOf k es) ∧
      s.data k = replay (Use.perform fromChar codec) (data k) (usesOf k es) := by
  obtain ⟨hreplies, hstate⟩ := h.onCell k
  have hmap := @replays_map _ (K × {u : Use V // Borrows fromChar codec N u}) _ _
    (Use.perform fromChar codec) (data k) (fun c => c.2.val)
    ((logOf (stores fromChar codec N σ K) k es).map Prod.snd)
  rw [List.map_map] at hmap
  exact ⟨hmap.1.mp hreplies, hstate.trans hmap.2⟩

/-- The stores between sessions of a process, and what has been done with each so far. -/
inductive Life (T : Type) [DecidableEq T] (fromChar : Char → Option Coord) (codec : Codec V)
    (d : K → SlotSize) : (K → CoordMapStore 64 N σ) → (K → History V) → Prop
  | new {o : K → σ} {data : K → CoordMapStore 64 N σ} (ho : ∀ k, ByteOrigin.bytes (o k) = [])
    (hnew : ∀ k, CoordMapStore.new (o k) (d k).val = .ok (data k)) :
    Life T fromChar codec d data fun _ => []
  | session {data : K → CoordMapStore 64 N σ} {past : K → History V}
    {es : List (Event T (K × {u : Use V // Borrows fromChar codec N u}) (UseReply V))}
    {s : Shared T K (CoordMapStore 64 N σ) (K × {u : Use V // Borrows fromChar codec N u})
      (UseReply V)} (h : Life T fromChar codec d data past)
    (hs : SharedCells.Reached (stores fromChar codec N σ K) data es s) :
    Life T fromChar codec d s.data fun k => past k ++ usesOf k es
  /-- Flush, drop and load with any default slot size. -/
  | reopen {data : K → CoordMapStore 64 N σ} {past : K → History V} {k : K}
    {st : CoordMapStore 64 N σ} (h : Life T fromChar codec d data past) (d' : SlotSize)
    (hst : answer (StoreRuns.reopen d') (data k) = (.ok (), st)) :
    Life T fromChar codec d (Function.update data k st) past

theorem books_of_life (hfail : NeverFails σ) (hcodec : RoundTrips codec) (hN : 2 ≤ N)
    (hN' : N ≤ maxStoreDepth) (hapart : Apart (placeOf fromChar N)) {d : K → SlotSize}
    {data : K → CoordMapStore 64 N σ} {past : K → History V}
    (h : Life T fromChar codec d data past) (k : K) :
    ∃ t, Allowed (Uses (mapLimits fromChar N codec (d k).val)) .blank (past k) t ∧
      Books fromChar codec (d k).val (data k) t := by
  have hpos : 0 < N := Nat.lt_of_lt_of_le Nat.two_pos hN
  induction h with
  | new ho hnew =>
    obtain ⟨st, hst, hback⟩ := backs_new (N := N) hpos (ho k) (d k)
    obtain ⟨st', hst', hspans⟩ := spans_new (N := N) hpos (ho k) (d k)
    cases (hnew k).symm.trans hst
    cases (hnew k).symm.trans hst'
    exact ⟨Ledger.blank, .nil Ledger.blank, carries_empty hback, hspans⟩
  | session _ hs ih =>
    obtain ⟨t, hpast, hbooks⟩ := ih
    obtain ⟨hreplies, hstate⟩ := uses_replay (sequential_of_reached hs) k
    rw [hstate]
    exact allowed_of_replays (use_allowed hfail hcodec hN hapart) hpast hbooks hreplies
  | @reopen data past k' st h d' hst ih =>
    by_cases hk : k = k'
    · subst hk
      rw [Function.update_self]
      obtain ⟨t, hpast, hbooks⟩ := ih
      obtain ⟨st', hanswer, hbooks'⟩ := reopen_books hfail hpos hN' hbooks d'
      cases hst.symm.trans hanswer
      exact ⟨t, hpast, hbooks'⟩
    · rw [Function.update_of_ne hk]
      exact ih

/-- What the threads of a process see of its stores, now and in the sessions before. -/
structure Shares (T : Type) [DecidableEq T] (fromChar : Char → Option Coord) (codec : Codec V)
    (d : K → SlotSize) (data : K → CoordMapStore 64 N σ) (past : K → History V) : Prop where
  used : ∀ k, ∃ t, Allowed (Uses (mapLimits fromChar N codec (d k).val)) .blank (past k) t
  /-- The next session runs one call at a time, each between its start and its return, and
  no borrow panics. -/
  sequential : ∀ (es : List (Event T (K × {u : Use V // Borrows fromChar codec N u}) (UseReply V)))
    s, SharedCells.Reached (stores fromChar codec N σ K) data es s →
      Sequential (stores fromChar codec N σ K) data es s
  reopens : ∀ k (d' : SlotSize), ∃ st, answer (StoreRuns.reopen d') (data k) = (.ok (), st)

theorem lives_are_shared (hfail : NeverFails σ)
    (hinj : ∀ c d x, fromChar c = some x → fromChar d = some x → c = d)
    (hcodec : RoundTrips codec) (hN : 2 ≤ N) (hN' : N ≤ maxStoreDepth) {d : K → SlotSize}
    {data : K → CoordMapStore 64 N σ} {past : K → History V}
    (h : Life T fromChar codec d data past) :
    Shares T fromChar codec d data past ∧
      ∀ c : EntityCall V, ¬ Borrows fromChar codec N (.call c) → ∃ r, ∀ st : CoordMapStore 64 N σ,
        EntityCall.perform (mapEntityStore N σ fromChar codec) c st = (r, st) := by
  have hbooks := books_of_life hfail hcodec hN hN' (places_apart hinj hN) h
  refine ⟨⟨?_, fun es s hs => sequential_of_reached hs, ?_⟩, fun c hc => aside hN hc⟩
  · intro k
    obtain ⟨t, hpast, -⟩ := hbooks k
    exact ⟨t, hpast⟩
  · intro k d'
    obtain ⟨t, -, hk⟩ := hbooks k
    obtain ⟨st, hanswer, -⟩ := reopen_books hfail (Nat.lt_of_lt_of_le Nat.two_pos hN) hN' hk d'
    exact ⟨st, hanswer⟩

/-- Three threads on two stores with byte values. -/
theorem lives_are_shared_bytes : ∃ data : Bool → CoordMapStore 64 2 IdealOrigin,
    (∀ k, CoordMapStore.new ⟨[]⟩ 32 = .ok (data k)) ∧
      Shares (Fin 3) hangul byteCodec (fun _ => ⟨32, by decide⟩) data (fun _ => []) ∧
      ∀ c : EntityCall UInt8, ¬ Borrows hangul byteCodec 2 (.call c) →
        ∃ r, ∀ st : CoordMapStore 64 2 IdealOrigin,
          EntityCall.perform (mapEntityStore 2 IdealOrigin hangul byteCodec) c st = (r, st) := by
  obtain ⟨st, hnew, -⟩ := backs_new (N := 2) (o := (⟨[]⟩ : IdealOrigin)) (by decide) rfl
    ⟨32, by decide⟩
  refine ⟨fun _ => st, fun _ => hnew, ?_⟩
  exact lives_are_shared IdealOrigin.neverFails hangul_inj byteCodec_roundTrips (by decide)
    (by decide) (.new (o := fun _ => ⟨[]⟩) (fun _ => rfl) fun _ => hnew)

end Chton.SharedEntities
