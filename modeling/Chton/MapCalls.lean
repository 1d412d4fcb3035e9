import Chton.RecordCalls
import Chton.HeaderCalls

/-!
# Specifications of the map operations

Every operation of the map is the operation of the same name on layouts. `put_path` and
`remove_path` are cut in two at their first write to something a reader can reach: what
fails up to that write leaves every entry in place, what fails after it does not.
-/

namespace Chton.MapCalls
open OutcomePrograms ByteRegions LittleEndianWords Origins TreeStrategyProgram CoordMapProgram
open StoreLayouts StoreLayouts.Layout LayoutImages ImageEdits StrategyCalls StoreRepresentations
open TreeDescents RecordCalls HeaderCalls

variable {N : ℕ} {σ : Type} [ByteOrigin σ]
variable {st st' : CoordMapStore 64 N σ} {L G A : Layout} {p : CoordPath N} {v : Bytes}
variable {q : List Coord} {c : Coord}

/-- The store represents the layout, and `len` counts its records. -/
structure Holds (st : CoordMapStore 64 N σ) (L : Layout) : Prop where
  mount : Represents st.mount L
  len : st.len = (L.live N).ncard

theorem Holds.congr (h : Holds st L) (hs : SameStore st st') : Holds st' L :=
  ⟨h.mount.congr hs.mount, hs.len.trans h.len⟩

/-- A full path is its leaf node and its leaf index. -/
theorem coords_split (hN : 0 < N) (p : CoordPath N) :
    ∃ q c, p.coords = q ++ [c] ∧ q.length + 1 = N := by
  have hp := p.length_coords
  obtain ⟨q, c, hq⟩ := exists_append_singleton (l := p.coords) (by omega)
  refine ⟨q, c, hq, ?_⟩
  rw [hq] at hp
  simpa using hp

theorem coords_ne_nil (hN : 0 < N) (p : CoordPath N) : p.coords ≠ [] :=
  List.ne_nil_of_length_pos (by rw [p.length_coords]; exact hN)

/-- The record that the layout has at a path is read back. -/
theorem readEntry_spec (h : Readable st.mount L) (hN : 0 < N) (hp : L.ptr p.coords ≠ 0) :
    Ensures (readRecord (L.ptr p.coords)) st (fun a st' => a = L.val p.coords ∧ SameStore st st')
      (FaultedStore st) := by
  have hlen := p.length_coords
  have hend := h.valid.entry_upper (coords_ne_nil hN p) hp
  have hfit := h.valid.fits _ hlen hp
  have hbump := h.valid.bump_lt
  rw [spanOf_record hlen] at hend
  exact readRecord_spec h.slot h.valid.slot_lt (h.stored.records _ hlen hp) hfit
    (h.valid.sized _ hlen hp) (by omega)

theorem locateEntry_spec (h : Readable st.mount L) (hN : 0 < N) (p : CoordPath N) :
    Ensures (onStrategy (locate p)) st
      (fun s st' => s = L.resolve [] p.coords ∧ SameStore st st') (FaultedStore st) :=
  onStrategy_read (locate_spec h.valid h.stored.tree hN p)

theorem recordOffset_resolve (h : L.Valid N) (hN : 0 < N) (p : CoordPath N) :
    (L.resolve [] p.coords).recordOffset = L.ptr p.coords :=
  resolve_recordOffset h.toWired (coords_ne_nil hN p)

theorem getPath_spec (h : Readable st.mount L) (hN : 0 < N) (p : CoordPath N) :
    Ensures (getPath p) st (fun r st' => r = L.contents p ∧ SameStore st st') (FaultedStore st) := by
  rw [getPath, contents]
  apply (locateEntry_spec h hN p).andThen
  rintro _ st₁ ⟨rfl, hst₁⟩
  rw [recordOffset_resolve h.valid hN]
  refine ensures_ite (fun h0 => ?_) fun hp => ?_
  · rw [if_pos h0, ensures_pure]
    exact ⟨rfl, hst₁⟩
  · rw [if_neg hp]
    refine (readEntry_spec (h.congr hst₁.mount) hN hp).bind ?_ fun _ _ h => h.trans hst₁
    rintro a st₂ ⟨ha, hst₂⟩
    rw [ha, ensures_pure]
    exact ⟨rfl, hst₁.trans hst₂⟩

theorem live_of_kept (h : Kept N L G) : G.live N = L.live N := by
  ext q
  constructor
  · rintro ⟨hq, hp⟩
    exact ⟨hq, h.ptr q hq ▸ hp⟩
  · rintro ⟨hq, hp⟩
    exact ⟨hq, (h.ptr q hq).symm ▸ hp⟩

theorem live_place {r : ℕ} (hptr : A.ptr = L.ptr) (hlen : q.length = N) (hr : r ≠ 0) :
    (A.place q r v).live N = insert q (L.live N) := by
  ext x
  by_cases hx : x = q
  · subst hx
    simp [live, hlen, hr]
  · simp [live, hx, hptr]

theorem live_release : (L.release q).live N = L.live N \ {q} := by
  ext x
  by_cases hx : x = q
  · subst hx
    simp [live]
  · simp [live, hx]

theorem len_lt (h : Holds st L) (hN : 0 < N) : st.len + 1 < 2 ^ 64 := by
  have h₁ := h.mount.valid.live_mul_le hN
  have h₂ := h.mount.valid.bump_lt
  rw [h.len]
  omega

/-- What `put_path` has decided when its first visible write is done. -/
inductive Staged where
  | overwrite (record : ℕ) (prev : Bytes)
  | insert (slot : Slot) (record : ℕ)

/-- `put_path` up to and including its first write to a linked record or a leaf slot. -/
def putStage (path : CoordPath N) (value : Bytes) : MapProgram 64 N σ Staged := do
  let maxLen ← maxValueLen
  if value.length > maxLen then throw (.err (.valueTooLarge value.length maxLen)) else
  let slot ← onStrategy (locateOrCreate path)
  if slot.recordOffset ≠ 0 then
    let prev ← readRecord slot.recordOffset
    onMapOrigin (Origin.write slot.recordOffset (encode 8 value.length))
    pure (.overwrite slot.recordOffset prev)
  else
    let record ← onStrategy allocRecord
    onStrategy (do
      let pos ← slotPos slot.leafNode slot.leafIndex
      writeU64 pos record)
    pure (.insert slot record)

def putFinish (value : Bytes) : Staged → MapProgram 64 N σ (Option Bytes)
  | .overwrite record prev => do
    writePayload record value
    modify fun st => { st with dirty := true }
    pure (some prev)
  | .insert slot record => do
    onStrategy (writeBitmapBit slot.leafNode slot.leafIndex record)
    bumpLen
    writeRecord record value
    modify fun st => { st with dirty := true }
    pure none

omit [ByteOrigin σ] in
theorem onStrategy_bind {α β : Type} (x : BindingProgram N σ α) (f : α → BindingProgram N σ β) :
    (onStrategy (x >>= f) : MapProgram 64 N σ β) = onStrategy x >>= fun a => onStrategy (f a) := by
  refine focus_bind ?_ ?_ x f
  · exact fun _ _ => rfl
  · exact fun _ _ _ => rfl

theorem putPath_split (path : CoordPath N) (value : Bytes) :
    (putPath path value : MapProgram 64 N σ (Option Bytes)) =
      putStage path value >>= putFinish value := by
  simp only [putPath, putStage, putFinish, writeLeaf, writeSlot, onStrategy_bind, writeRecord_eq,
    bind_assoc, ite_bind, throw_bind, pure_bind]

/-- The state after the first visible write of `put_path`, seen from a mount `g` that
represents the layout `G` with the leaf node of `q ++ [c]` in place. -/
def StagedAt (G : Layout) (q : List Coord) (c : Coord) (v : Bytes) (g m : Mount N σ) :
    Staged → Prop
  | .overwrite r prev => G.ptr (q ++ [c]) ≠ 0 ∧ r = G.ptr (q ++ [c]) ∧ prev = G.val (q ++ [c]) ∧
      m.strategy = g.strategy ∧ image m = overlay (image g) r (encode 8 v.length)
  | .insert slot r => G.ptr (q ++ [c]) = 0 ∧ slot.leafNode = G.ptr q ∧ slot.leafIndex = c ∧
      (∃ A, G.takeRecord = some (r, A) ∧ Tracks m.strategy A) ∧
      image m = overlay (image g) (slotAddr (G.ptr q) c) (encode 8 r)

structure PutRefused (L : Layout) (p : CoordPath N) (v : Bytes) (st : CoordMapStore 64 N σ)
    (e : Stop MapError) (st' : CoordMapStore 64 N σ) : Prop where
  error : (L.put p v).1 = .error e
  mount : Represents st'.mount (L.put p v).2
  follows : Follows st.mount L st'.mount (L.put p v).2
  kept : Kept N L (L.put p v).2
  len : st'.len = st.len
  dirty : st'.dirty = st.dirty

def SparedStore (L : Layout) (st : CoordMapStore 64 N σ) :
    Stop MapError → CoordMapStore 64 N σ → Prop :=
  Refused fun _ st' => ByteOrigin.mayFail σ ∧
    (∃ L', Represents st'.mount L' ∧ Kept N L L') ∧ st'.len = st.len

theorem sparedStore_of_faulted {e : Stop MapError} {st₁ : CoordMapStore 64 N σ}
    (h : Represents st₁.mount G) (hk : Kept N L G) (hlen : st₁.len = st.len)
    (hf : FaultedStore st₁ e st') : SparedStore L st e st' :=
  hf.mono fun _ _ hs => ⟨hs.1, ⟨G, h.congr hs.2.mount, hk⟩, hs.2.len.trans hlen⟩

theorem put_tooLarge (hv : v.length > L.slot - lengthBytes) :
    L.put p v = (.error (.err (.valueTooLarge v.length (L.slot - lengthBytes))), L) := by
  rw [put, if_pos hv]

theorem put_full (hv : ¬v.length > L.slot - lengthBytes) (hd : L.descend [] p.coords = (G, false)) :
    L.put p v = (.error (G.areaFull.map .binding), G) := by
  rw [put, if_neg hv, hd]

theorem put_settle (hv : ¬v.length > L.slot - lengthBytes) (hd : L.descend [] p.coords = (G, true)) :
    L.put p v = G.settle p v := by
  rw [put, if_neg hv, hd]

theorem settle_overwrite (hp : G.ptr p.coords ≠ 0) :
    G.settle p v = (.ok (some (G.val p.coords)), G.rewrite p.coords v) := by
  rw [settle, if_pos hp]

theorem settle_insert {r : ℕ} (hp : G.ptr p.coords = 0) (htake : G.takeRecord = some (r, A)) :
    G.settle p v = (.ok none, A.place p.coords r v) := by
  rw [settle, if_neg (not_not.mpr hp), htake]

theorem settle_full (hp : G.ptr p.coords = 0) (htake : G.takeRecord = none) :
    G.settle p v = (.error (G.areaFull.map .binding), G) := by
  rw [settle, if_neg (not_not.mpr hp), htake]

/-- The layout between the descent of `put_path` and its first visible write. -/
structure Ready (L : Layout) (p : CoordPath N) (G : Layout) (q : List Coord) (c : Coord) : Prop where
  path : p.coords = q ++ [c]
  length : q.length + 1 = N
  descend : L.descend [] p.coords = (G, true)
  node : G.ptr q ≠ 0
  descended : Descended N L G

theorem ready_of_descend (h : L.Valid N) (hq : p.coords = q ++ [c]) (hlen : q.length + 1 = N)
    (hd : L.descend [] p.coords = (G, true)) : Ready L p G q c := by
  obtain ⟨hdesc, hnode⟩ := descend_path h p
  rw [hd] at hdesc hnode
  refine ⟨hq, hlen, hd, ?_, hdesc⟩
  simpa [hq] using hnode rfl

theorem stageOverwrite_spec (h : Represents st.mount G) (hN : 0 < N) (hq : p.coords = q ++ [c])
    (hp : G.ptr p.coords ≠ 0) :
    Ensures (do
        let prev ← readRecord (G.ptr p.coords)
        onMapOrigin (Origin.write (G.ptr p.coords) (encode 8 v.length))
        pure (Staged.overwrite (G.ptr p.coords) prev)) st
      (fun s st' => (∃ g, Same st.mount g ∧ StagedAt G q c v g st'.mount s) ∧
        st'.len = st.len ∧ st'.dirty = st.dirty) (FaultedStore st) := by
  have hend := h.valid.entry_upper (coords_ne_nil hN p) hp
  have hbump := h.valid.bump_lt
  have hslot := h.valid.slot_ge
  rw [spanOf_record p.length_coords] at hend
  apply (readEntry_spec h.readable hN hp).andThen
  rintro prev st₁ ⟨hprev, hst₁⟩
  refine (writeLength_spec st₁ v (by omega)).bind ?_ fun _ _ h => h.trans hst₁
  rintro _ st₂ ⟨hs, hi, hlen, hdirty⟩
  rw [hprev, ensures_pure]
  refine ⟨⟨st₁.mount, hst₁.mount, ?_⟩, hlen.trans hst₁.len, hdirty.trans hst₁.dirty⟩
  rw [hq] at hp hi ⊢
  exact ⟨hp, rfl, rfl, hs, hi⟩

theorem stageInsert_spec (v : Bytes) {slot : Slot} (h : Represents st.mount G) (hN : 0 < N)
    (hq : p.coords = q ++ [c]) (hlen : q.length + 1 = N) (hnode : G.ptr q ≠ 0)
    (hp : G.ptr p.coords = 0) (hleaf : slot.leafNode = G.ptr q) (hindex : slot.leafIndex = c) :
    Ensures (do
        let record ← onStrategy allocRecord
        onStrategy (do
          let pos ← slotPos slot.leafNode slot.leafIndex
          writeU64 pos record)
        pure (Staged.insert slot record)) st
      (fun s st' => StagedAt G q c v st.mount st'.mount s ∧ st'.len = st.len ∧ st'.dirty = st.dirty)
      (fun e st' => G.takeRecord = none ∧ e = G.areaFull.map .binding ∧ st' = st ∨
        SparedStore G st e st') := by
  have hlt := node_lt h.valid hN hnode (by omega)
  have hle := slotAddr_le (G.ptr q) c
  refine (onStrategy_spec (allocRecord_spec h.allocated)).bind ?_ ?_
  · rintro r st₁ ⟨hst₁, A, htake, hA, hi₁⟩
    have hpos : Ensures (do
        let pos ← slotPos slot.leafNode slot.leafIndex
        writeU64 pos r) st₁.mount
        (fun _ m' => m'.strategy = st₁.mount.strategy ∧
          image m' = overlay (image st₁.mount) (slotAddr (G.ptr q) c) (encode 8 r))
        (Faulted st₁.mount) := by
      rw [hleaf, hindex]
      apply (slotPos_spec st₁.mount hlt).andThen
      rintro pos m ⟨hpos, rfl⟩
      rw [hpos]
      exact writeU64_spec _ (by omega)
    refine (onStrategy_spec hpos).bind ?_ ?_
    · rintro _ st₂ ⟨hst₂, hs₂, hi₂⟩
      rw [ensures_pure]
      refine ⟨⟨hq ▸ hp, hleaf, hindex, ⟨A, htake, hs₂ ▸ hA⟩, hi₁ ▸ hi₂⟩, ?_, ?_⟩ <;> rw [hst₂, hst₁]
    · rintro _ st₂ ⟨hst₂, e, rfl, hf⟩
      refine .inr (refused_map.mpr (hf.imp fun _ hs => ⟨hs.1, ⟨A.lose r G.slot, ?_, ?_⟩, ?_⟩))
      · exact h.loseRecord htake (hs.2.strategy ▸ hA) (hs.2.image.trans hi₁)
      · obtain ⟨hptr, hval, hslot, -⟩ := h.valid.takeRecord htake
        exact ⟨fun x _ => congrFun hptr x, fun x _ _ => congrFun hval x, hslot⟩
      · rw [hst₂, hst₁]
  · rintro _ st₁ ⟨hst₁, e, rfl, ⟨htake, rfl, hm⟩ | hf⟩
    · exact .inl ⟨htake, rfl, by rw [hst₁, hm]⟩
    · refine .inr (refused_map.mpr (hf.imp fun _ hs => ⟨hs.1, ⟨G, h.congr hs.2, Kept.refl N G⟩, ?_⟩))
      rw [hst₁]

theorem putStage_spec (h : Represents st.mount L) (hN : 0 < N) (hq : p.coords = q ++ [c]) :
    Ensures (putStage p v) st
      (fun s st' => ¬v.length > L.slot - lengthBytes ∧ (∃ G, Ready L p G q c ∧
        ∃ g : Mount N σ, Represents g G ∧
          Follows st.mount L g G ∧ StagedAt G q c v g st'.mount s) ∧
        st'.len = st.len ∧ st'.dirty = st.dirty)
      (fun e st' => PutRefused L p v st e st' ∨ SparedStore L st e st') := by
  have hplen := p.length_coords
  have hqlen : q.length + 1 = N := by
    rw [hq] at hplen
    simpa using hplen
  have hlength : lengthBytes = 8 := rfl
  have hslot8 := h.valid.slot_ge
  rw [putStage]
  apply (maxValueLen_spec h.fields.slot hslot8 h.valid.slot_lt).andThen
  rintro maxLen st ⟨hmax, rfl⟩
  rw [hmax]
  refine ensures_ite (fun hbig => ?_) fun hsmall => ?_
  · rw [ensures_throw]
    have hput := put_tooLarge (p := p) hbig
    refine .inl ⟨by rw [hput], ?_, ?_, ?_, rfl, rfl⟩ <;> rw [hput]
    · exact h
    · exact follows_of_same (Same.refl _) L
    · exact Kept.refl N L
  have hloc := locateOrCreate_spec h hN p
  rcases hd : L.descend [] p.coords with ⟨G, flag⟩
  rw [hd] at hloc
  refine (onStrategy_spec hloc).bind ?_ ?_
  · rintro slot st₁ ⟨hst₁, hflag, hslot, hG, hfollow⟩
    obtain rfl : flag = true := hflag
    have hready := ready_of_descend h.valid hq hqlen hd
    have hkept := hready.descended.kept
    have hres : slot = ⟨G.ptr q, c, slotAddr (G.ptr q) c, G.ptr p.coords⟩ := by
      rw [hslot, hq]
      exact @resolve_of_node N G q [] c hG.valid.toWired hready.node
    have hlen₁ : st₁.len = st.len := by rw [hst₁]
    have hdirty₁ : st₁.dirty = st.dirty := by rw [hst₁]
    subst hres
    refine ensures_ite (fun hp => ?_) fun hp => ?_
    · refine (stageOverwrite_spec hG hN hq hp).mono ?_ fun e st₂ hf =>
        .inr (sparedStore_of_faulted hG hkept hlen₁ hf)
      rintro s st₂ ⟨⟨g, hg, hs⟩, hlen₂, hdirty₂⟩
      exact ⟨hsmall, ⟨G, hready, g, hG.congr hg, hfollow.trans (follows_of_same hg G), hs⟩,
        hlen₂.trans hlen₁, hdirty₂.trans hdirty₁⟩
    · have hp : G.ptr p.coords = 0 := not_not.mp hp
      refine (stageInsert_spec v hG hN hq hqlen hready.node hp rfl rfl).mono ?_ ?_
      · rintro s st₂ ⟨hs, hlen₂, hdirty₂⟩
        exact ⟨hsmall, ⟨G, hready, st₁.mount, hG, hfollow, hs⟩, hlen₂.trans hlen₁,
          hdirty₂.trans hdirty₁⟩
      · rintro e st₂ (⟨htake, rfl, rfl⟩ | hsp)
        · have hput := (put_settle hsmall hd).trans (settle_full (v := v) hp htake)
          refine .inl ⟨by rw [hput], ?_, ?_, ?_, hlen₁, hdirty₁⟩ <;> rw [hput]
          · exact hG
          · exact hfollow
          · exact hkept
        · exact .inr (hsp.mono fun _ _ ⟨hfail, ⟨G', hG', hk⟩, hl⟩ =>
            ⟨hfail, ⟨G', hG', hkept.trans hk⟩, hl.trans hlen₁⟩)
  · rintro _ st₁ ⟨hst₁, e, rfl, ⟨hflag, rfl, hG, hfollow⟩ | hsp⟩
    · obtain rfl : flag = false := by simpa using hflag
      have hput := put_full hsmall hd
      obtain ⟨hdesc, -⟩ := descend_path h.valid p
      rw [hd] at hdesc
      refine .inl ⟨by rw [hput], ?_, ?_, ?_, by rw [hst₁], by rw [hst₁]⟩ <;> rw [hput]
      · exact hG
      · exact hfollow
      · exact hdesc.kept
    · exact .inr (refused_map.mpr (hsp.imp fun _ hs => ⟨hs.1, hs.2, by rw [hst₁]⟩))

/-- An origin call failed after the first visible write; nothing is said about the entries. -/
def Broken : Stop MapError → CoordMapStore 64 N σ → Prop := Refused fun _ _ => ByteOrigin.mayFail σ

theorem broken_of_faulted {e : Stop MapError} (hf : FaultedStore st e st') : Broken e st' :=
  hf.mono fun _ _ hs => hs.1

structure Done (L : Layout) (r : Except (Stop MapError) (Option Bytes) × Layout)
    (st : CoordMapStore 64 N σ) (a : Option Bytes) (st' : CoordMapStore 64 N σ) : Prop where
  value : r.1 = .ok a
  holds : Holds st' r.2
  follows : Follows st.mount L st'.mount r.2

theorem finishOverwrite_spec {g : Mount N σ} {prev : Bytes} {r : ℕ} (hN : 0 < N)
    (hq : p.coords = q ++ [c]) (hg : Represents g G) (hlen : st.len = (G.live N).ncard)
    (hs : StagedAt G q c v g st.mount (.overwrite r prev)) (hfit : v.length + 8 ≤ G.slot)
    (hsized : v.length < 2 ^ 63) :
    Ensures (putFinish v (.overwrite r prev)) st
      (fun a st' => a = some (G.val p.coords) ∧ Holds st' (G.rewrite p.coords v) ∧
        Follows g G st'.mount (G.rewrite p.coords v) ∧
        st'.dirty = true) Broken := by
  obtain ⟨hp, rfl, rfl, hstrat, hi⟩ := hs
  have hplen := p.length_coords
  have hend := hg.valid.entry_upper (by simp) hp
  have hbump := hg.valid.bump_lt
  rw [hq] at hplen ⊢
  rw [spanOf_record hplen] at hend
  rw [putFinish]
  refine (writePayload_spec st v (by omega)).bind ?_ fun _ _ hf => broken_of_faulted hf
  rintro _ st₁ ⟨hs₁, hi₁, hl₁, -⟩
  rw [ensures_bind, ensures_modify, ensures_pure]
  have himage : image st₁.mount = setRecord (image g) (G.ptr (q ++ [c])) v := by
    rw [hi₁, hi, setRecord]
  exact ⟨rfl, ⟨hg.rewrite hN hplen hp hfit hsized (hs₁.trans hstrat) himage, hl₁.trans hlen⟩,
    follows_rewrite hg hN hplen hp hfit himage, rfl⟩

omit [ByteOrigin σ] in
theorem bumpLen_spec (h : st.len + 1 < 2 ^ 64) {E : Stop MapError → CoordMapStore 64 N σ → Prop} :
    Ensures bumpLen st (fun _ st' => st' = { st with len := st.len + 1 }) E := by
  rw [bumpLen, ensures_bind, ensures_get, if_pos h, ensures_set]

theorem finishInsert_spec {g : Mount N σ} {slot : Slot} {r : ℕ} (hN : 0 < N)
    (hq : p.coords = q ++ [c]) (hqlen : q.length + 1 = N) (hnode : G.ptr q ≠ 0)
    (hg : Represents g G) (hlen : st.len = (G.live N).ncard) (hlt : st.len + 1 < 2 ^ 64)
    (hs : StagedAt G q c v g st.mount (.insert slot r)) (hfit : v.length + 8 ≤ G.slot)
    (hsized : v.length < 2 ^ 63) :
    Ensures (putFinish v (.insert slot r)) st
      (fun a st' => a = none ∧ ∃ A, G.takeRecord = some (r, A) ∧ Holds st' (A.place p.coords r v) ∧
        Follows g G st'.mount (A.place p.coords r v) ∧
        st'.dirty = true) Broken := by
  obtain ⟨habs, hleaf, hindex, ⟨A, htake, hA⟩, hi⟩ := hs
  obtain ⟨hptr, -, -, -, hbump, -, -, -, hlo, hhi⟩ := hg.valid.takeRecord htake
  have hge := slotAddr_ge (G.ptr q) c
  have hbit := bitAddr_lt (G.ptr q) c
  have hroom : bitAddr (G.ptr q) c < (image st.mount).length := by
    rw [hi, length_overlay, length_encode]
    omega
  rw [putFinish, hleaf, hindex]
  refine (onStrategy_spec (writeBitmapBit_spec st.mount (node_lt hg.valid hN hnode (by omega))
    hroom)).bind ?_ ?_
  · rintro _ st₁ ⟨hst₁, hs₁, hi₁⟩
    have hset : image st₁.mount = setSlot (image g) (G.ptr q) c r := by
      rw [hi₁, hi, setSlot]
    have hl₁ : st₁.len = st.len := by rw [hst₁]
    apply (bumpLen_spec (hl₁ ▸ hlt)).andThen
    rintro _ st₂ rfl
    rw [writeRecord_eq, bind_assoc]
    refine (writeLength_spec _ v (by omega)).bind ?_ fun _ _ hf => broken_of_faulted hf
    rintro _ st₃ ⟨hs₃, hi₃, hl₃, -⟩
    refine (writePayload_spec st₃ v (by omega)).bind ?_ fun _ _ hf => broken_of_faulted hf
    rintro _ st₄ ⟨hs₄, hi₄, hl₄, -⟩
    rw [ensures_bind, ensures_modify, ensures_pure]
    have himage : image st₄.mount = placed (image g) (G.ptr q) c r v := by
      rw [hi₄, hi₃, placed, ← hset, setRecord]
    have hfields : Tracks st₄.mount.strategy A := (hs₄.trans (hs₃.trans hs₁)) ▸ hA
    rw [hq]
    refine ⟨rfl, A, htake, ⟨hg.place hN htake hnode hqlen habs hfit hsized hfields himage, ?_⟩,
      follows_place hg hN htake hnode hqlen hfit himage, rfl⟩
    have hr : r ≠ 0 := by
      rw [rootEnd_eq] at hlo
      omega
    have hnot : q ++ [c] ∉ G.live N := fun hmem => hmem.2 habs
    rw [live_place hptr (by simpa using hqlen) hr,
      Set.ncard_insert_of_notMem hnot (hg.valid.live_finite hN)]
    exact hl₄.trans (hl₃.trans (by rw [hl₁, hlen]))
  · rintro _ st₁ ⟨hst₁, e, rfl, hf⟩
    exact refused_map.mpr (hf.imp fun _ hs => hs.1)

theorem putPath_spec (h : Holds st L) (hN : 0 < N) (p : CoordPath N) (hsized : v.length < 2 ^ 63) :
    Ensures (putPath p v) st
      (fun a st' => Done L (L.put p v) st a st' ∧ st'.dirty = true)
      (fun e st' => PutRefused L p v st e st' ∨ Broken e st') := by
  obtain ⟨q, c, hq, hqlen⟩ := coords_split hN p
  have hlength : lengthBytes = 8 := rfl
  have hslot := h.mount.valid.slot_ge
  rw [putPath_split]
  refine (putStage_spec h.mount hN hq).bind ?_ ?_
  · rintro s st₁ ⟨hsmall, ⟨G, hready, g, hg, hfollow, hs⟩, hl₁, -⟩
    have hkept := hready.descended.kept
    have hfit : v.length + 8 ≤ G.slot := by
      rw [hkept.slot]
      omega
    have hlen : st₁.len = (G.live N).ncard := by rw [hl₁, h.len, live_of_kept hkept]
    have hput := put_settle (v := v) hsmall hready.descend
    cases s with
    | overwrite r prev =>
      have hp : G.ptr p.coords ≠ 0 := hq ▸ hs.1
      rw [settle_overwrite hp] at hput
      refine (finishOverwrite_spec hN hq hg hlen hs hfit hsized).mono ?_ fun _ _ hb => .inr hb
      rintro a st₂ ⟨rfl, hH, hy, hd⟩
      rw [hput]
      exact ⟨⟨rfl, hH, hfollow.trans hy⟩, hd⟩
    | insert slot r =>
      have hp : G.ptr p.coords = 0 := hq ▸ hs.1
      have hlt : st₁.len + 1 < 2 ^ 64 := hl₁ ▸ len_lt h hN
      refine (finishInsert_spec hN hq hqlen hready.node hg hlen hlt hs hfit hsized).mono ?_
        fun _ _ hb => .inr hb
      rintro a st₂ ⟨rfl, A, htake, hH, hy, hd⟩
      rw [settle_insert hp htake] at hput
      rw [hput]
      exact ⟨⟨rfl, hH, hfollow.trans hy⟩, hd⟩
  · rintro e st₁ (href | hsp)
    · exact .inl href
    · exact .inr (hsp.mono fun _ _ hs => hs.1)

end Chton.MapCalls
