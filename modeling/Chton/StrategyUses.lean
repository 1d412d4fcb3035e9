import Chton.MapUpdates
import Chton.OriginFrames
import Mathlib.Logic.Relation

/-!
# How the map uses its strategy

Between two calls of the map the strategy is idle. `put_path` looks a slot up or creates it,
takes a record when the slot has none, links the record and writes into it; `remove_path` looks a
slot up, frees its record and clears the slot. `Call` lists these calls with the phase each one
leads to, and `Use` is one of them with any outcome.

Between `alloc_record` and `write_leaf` a record belongs to nobody, and between
`free_record` and `write_leaf` one record is both free and linked, so no layout describes all
fields of the strategy there. Every phase still has a layout of the nodes.
-/

namespace Chton.StrategyUses
open OutcomePrograms ByteRegions LittleEndianWords Origins TreeStrategyProgram CoordMapProgram
open StoreLayouts StoreLayouts.Layout LayoutImages ImageEdits StrategyCalls StoreRepresentations
open TreeDescents RecordCalls MapCalls MapUpdates OriginFrames

variable {N : ℕ} {σ : Type}

/-- What a call of the map has done so far. -/
inductive Phase where
  | idle
  | found (slot : Slot)
  | seen (slot : Slot)
  | reserved (slot : Slot) (record : ℕ)
  | filling (record : ℕ)
  | freed (slot : Slot)

inductive Call [Origin σ] (size : ℕ) : Phase → BindingProgram N σ Phase → Prop
  | create (key : CoordPath N) : Call size .idle (Phase.found <$> locateOrCreate key)
  | look (key : CoordPath N) : Call size .idle (Phase.seen <$> locate key)
  | reuse (slot : Slot) (linked : slot.recordOffset ≠ 0) :
      Call size (.found slot) (pure (.filling slot.recordOffset))
  | alloc (slot : Slot) (absent : slot.recordOffset = 0) :
      Call size (.found slot) (Phase.reserved slot <$> allocRecord)
  | link (slot : Slot) (record : ℕ) :
      Call size (.reserved slot record) ((fun _ => Phase.filling record) <$> writeLeaf slot record)
  | fill (record offset : ℕ) (data : Bytes) (nonempty : data ≠ []) (lower : record ≤ offset)
      (upper : offset + data.length ≤ record + size) :
      Call size (.filling record)
        ((fun _ => Phase.filling record) <$> onOrigin (Origin.write offset data))
  | free (slot : Slot) (linked : slot.recordOffset ≠ 0) :
      Call size (.seen slot) ((fun _ => Phase.freed slot) <$> freeRecord slot.recordOffset)
  | unlink (slot : Slot) : Call size (.freed slot) ((fun _ => Phase.idle) <$> writeLeaf slot 0)
  | read (phase : Phase) (offset len : ℕ) :
      Call size phase ((fun _ => phase) <$> onOrigin (Origin.read offset len))
  | leaveFound (slot : Slot) : Call size (.found slot) (pure .idle)
  | leaveSeen (slot : Slot) : Call size (.seen slot) (pure .idle)
  | leaveFilling (record : ℕ) : Call size (.filling record) (pure .idle)

inductive Use [Origin σ] (size : ℕ) : Phase × Mount N σ → Phase × Mount N σ → Prop
  | done {phase next : Phase} {x : BindingProgram N σ Phase} {m m' : Mount N σ}
      (call : Call size phase x) (result : x m = .ok next m') : Use size (phase, m) (next, m')
  | failed {phase : Phase} {x : BindingProgram N σ Phase} {m m' : Mount N σ}
      {e : Stop BindingError} (call : Call size phase x) (result : x m = .error e m') :
      Use size (phase, m) (.idle, m')

abbrev Uses [Origin σ] (size : ℕ) : Phase × Mount N σ → Phase × Mount N σ → Prop :=
  Relation.ReflTransGen (Use size)

variable [ByteOrigin σ]

/-- The nodes of `L` are still nodes of `L'`, at the same addresses. -/
structure Grows (N : ℕ) (L L' : Layout) : Prop where
  nodes : ∀ q, q.length < N → L.ptr q ≠ 0 → L'.ptr q = L.ptr q
  slot : L'.slot = L.slot

structure Leaf (N : ℕ) (L : Layout) (slot : Slot) (q : List Coord) (c : Coord) : Prop where
  length : q.length + 1 = N
  node : L.ptr q ≠ 0
  slot : slot = ⟨L.ptr q, c, slotAddr (L.ptr q) c, L.ptr (q ++ [c])⟩

/-- A mount and a layout that describes its nodes, and in the idle phase all its fields. -/
inductive Standing : Phase → Mount N σ → Layout → Prop
  | idle {m : Mount N σ} {L : Layout} (h : Allocated m L) : Standing .idle m L
  | found {m : Mount N σ} {L : Layout} {slot : Slot} {q : List Coord} {c : Coord}
      (h : Allocated m L) (leaf : Leaf N L slot q c) : Standing (.found slot) m L
  | seen {m : Mount N σ} {L : Layout} (h : Allocated m L) (key : CoordPath N) :
      Standing (.seen (L.resolve [] key.coords)) m L
  | reserved {m m₀ : Mount N σ} {L A : Layout} {slot : Slot} {q : List Coord} {c : Coord} {r : ℕ}
      (h : Allocated m₀ L) (leaf : Leaf N L slot q c)
      (absent : L.ptr (q ++ [c]) = 0) (taken : L.takeRecord = some (r, A))
      (fields : Tracks m.strategy A) (same : image m = image m₀) :
      Standing (.reserved slot r) m (A.lose r L.slot)
  | filling {m : Mount N σ} {L : Layout} {p : List Coord} (h : Allocated m L) (length : p.length = N) (linked : L.ptr p ≠ 0) :
      Standing (.filling (L.ptr p)) m L
  | freed {m m₀ : Mount N σ} {L : Layout} {slot : Slot} {q : List Coord} {c : Coord}
      (h : Allocated m₀ L) (leaf : Leaf N L slot q c)
      (linked : L.ptr (q ++ [c]) ≠ 0)
      (head : m.strategy = { m₀.strategy with freeHead := L.ptr (q ++ [c]) })
      (threaded : image m = overlay (image m₀) (L.ptr (q ++ [c])) (encode 8 (L.free.headD 0))) :
      Standing (.freed slot) m L

variable {m m' m₀ : Mount N σ} {L L' L'' A G : Layout} {q q' : List Coord} {c c' : Coord} {r : ℕ}
variable {slot : Slot} {phase : Phase}

theorem Grows.refl (N : ℕ) (L : Layout) : Grows N L L := ⟨fun _ _ _ => rfl, rfl⟩

theorem Grows.trans (h : Grows N L L') (h' : Grows N L' L'') : Grows N L L'' := by
  refine ⟨fun q hq hp => ?_, h'.slot.trans h.slot⟩
  have hp' := h.nodes q hq hp
  rw [h'.nodes q hq (hp' ▸ hp), hp']

theorem Grows.node (h : Grows N L L') (hq : q.length < N) (hp : L.ptr q ≠ 0) : L'.ptr q ≠ 0 :=
  h.nodes q hq hp ▸ hp

theorem grows_of_descended (h : Descended N L L') : Grows N L L' :=
  ⟨fun q _ hp => h.grows q hp, h.kept.slot⟩

/-- Only a leaf slot changed. -/
theorem grows_update {a : ℕ} (hlen : q.length + 1 = N)
    (hptr : L'.ptr = Function.update L.ptr (q ++ [c]) a) (hslot : L'.slot = L.slot) :
    Grows N L L' := by
  refine ⟨fun p hp _ => ?_, hslot⟩
  rw [hptr, Function.update_of_ne]
  rintro rfl
  simp at hp
  omega

theorem leaf_resolve (h : L.Valid N) (hlen : q.length + 1 = N) (hq : L.ptr q ≠ 0) :
    Leaf N L (L.resolve [] (q ++ [c])) q c :=
  ⟨hlen, hq, @resolve_of_node N L q [] c h.toWired hq⟩

/-- What `locate_or_create` makes of the layout `L`. -/
structure Created (L : Layout) (key : CoordPath N) (slot : Slot) (G : Layout) : Prop where
  descended : Descended N L G
  resolved : slot = G.resolve [] key.coords
  leaf : ∃ q c, key.coords = q ++ [c] ∧ Leaf N G slot q c

theorem created_spec {R : Mount N σ → Layout → Prop} (hR : Descends R) (h : R m L) (hN : 0 < N)
    (key : CoordPath N) :
    Ensures (locateOrCreate key) m (fun slot m' => ∃ G, R m' G ∧ Created L key slot G)
      (fun e m' => (∃ G, R m' G ∧ Descended N L G) ∨ SparedBy R L e m') := by
  obtain ⟨q, c, hq, hlen⟩ := coords_split hN key
  obtain ⟨hdesc, hnode⟩ := descend_path (hR.treeAt h).valid key
  apply (locateOrCreate_descends hR h hN key).mono
  · intro slot m' hs
    obtain ⟨hfull, rfl, hG, -⟩ := hs
    have hq' := hnode hfull
    have hlast : [] ++ key.coords.dropLast = q := by simp [hq]
    rw [hlast] at hq'
    have hleaf := leaf_resolve (c := c) hdesc.valid hlen hq'
    rw [← hq] at hleaf
    exact ⟨_, hG, hdesc, rfl, q, c, hq, hleaf⟩
  · intro e m' he
    exact he.imp_left fun hfull => ⟨_, hfull.2.2.1, hdesc⟩

/-- Different leaf slots lie at different positions. -/
theorem leaf_apart (h : L.Valid N) (hq : L.ptr q ≠ 0) (hlen : q.length + 1 = N)
    (hq' : L.ptr q' ≠ 0) (hlen' : q'.length + 1 = N) (hne : q ++ [c] ≠ q' ++ [c']) :
    slotAddr (L.ptr q) c ≠ slotAddr (L.ptr q') c' := by
  by_cases hqq : q = q'
  · subst hqq
    have hc : c ≠ c' := by
      rintro rfl
      exact hne rfl
    have := slotAddr_apart (L.ptr q) hc
    omega
  · have hd := h.apart (by omega) hqq hq hq'
    rw [spanOf_node (by omega), spanOf_node (by omega)] at hd
    have := slotAddr_ge (L.ptr q) c
    have := slotAddr_le (L.ptr q) c
    have := slotAddr_ge (L.ptr q') c'
    have := slotAddr_le (L.ptr q') c'
    omega

theorem Standing.congr (h : Standing phase m L) (hs : Same m m') : Standing phase m' L := by
  cases h with
  | idle h => exact .idle (h.congr hs)
  | found h hleaf => exact .found (h.congr hs) hleaf
  | seen h key => exact .seen (h.congr hs) key
  | reserved h hleaf habs htake hA hi =>
    exact .reserved h hleaf habs htake (hs.strategy ▸ hA) (hs.image.trans hi)
  | filling h hlen hp => exact .filling (h.congr hs) hlen hp
  | freed h hleaf hp hm hi =>
    exact .freed h hleaf hp (hs.strategy.trans hm) (hs.image.trans hi)

/-- Threading a record onto the free list touches no node. -/
theorem freed_treeAt (h : Allocated m₀ L) (hN : 0 < N) {p : List Coord} (hlen : p.length = N)
    (hp : L.ptr p ≠ 0) {head : ℕ}
    (hm : m.strategy = { m₀.strategy with freeHead := L.ptr p })
    (hi : image m = overlay (image m₀) (L.ptr p) (encode 8 head)) : TreeAt m L where
  valid := h.valid
  bump := by
    rw [hm]
    exact h.fields.bump
  nodeSize := by
    rw [hm]
    exact h.fields.nodeSize
  tree := by
    have hslot := h.valid.slot_ge
    have hne : p ≠ [] := List.ne_nil_of_length_pos (by omega)
    have hlo := h.valid.entry_lower hne hp
    have hf : Framed (image m₀) (image m) (L.ptr p) (L.ptr p + L.slot) :=
      hi ▸ framed_overlay le_rfl (by simpa using hslot)
    have hroot : RootEdge (image m).length := by
      apply rootEdge_of_le
      rw [hi, length_overlay]
      omega
    have hfill : Allocated (⟨m₀.strategy, m.origin⟩ : Mount N σ) L := h.fill hN hlen hp rfl hf hroot
    exact hfill.tree

theorem Standing.treeAt (h : Standing phase m L) (hN : 0 < N) : TreeAt m L := by
  cases h with
  | idle h => exact h.treeAt
  | found h => exact h.treeAt
  | seen h => exact h.treeAt
  | reserved h hleaf habs htake hA hi => exact (h.loseRecord htake hA hi).treeAt
  | filling h => exact h.treeAt
  | freed h hleaf hp hm hi =>
    have hlen := hleaf.length
    exact freed_treeAt h hN (by simpa using hlen) hp hm hi

def Next (L : Layout) (phase : Phase) (m : Mount N σ) : Prop :=
  ∃ L', Standing phase m L' ∧ Grows N L L'

theorem next_same (h : Standing phase m L) : Next L phase m := ⟨L, h, Grows.refl N L⟩

theorem impossible {e : Stop BindingError} {P : BindingError → Mount N σ → Prop} {Q : Prop}
    (hσ : NeverFails σ) (h : Refused (fun e m' => ByteOrigin.mayFail σ ∧ P e m') e m) : Q := by
  cases e with
  | err e => exact absurd h.1 hσ
  | panic cause => exact h.elim

theorem create_spec (hσ : NeverFails σ) (h : Allocated m L) (hN : 0 < N) (key : CoordPath N) :
    Ensures (locateOrCreate key) m (fun slot m' => Next L (.found slot) m')
      (fun _ m' => Next L .idle m') := by
  apply (created_spec allocated_descends h hN key).mono
  · intro slot m' hs
    obtain ⟨G, hG, hcreated⟩ := hs
    obtain ⟨q, c, -, hleaf⟩ := hcreated.leaf
    exact ⟨G, .found hG hleaf, grows_of_descended hcreated.descended⟩
  · intro e m' he
    cases he with
    | inl hfull =>
      obtain ⟨G, hG, hdesc⟩ := hfull
      exact ⟨G, .idle hG, grows_of_descended hdesc⟩
    | inr hspared => exact impossible hσ hspared

theorem alloc_spec (hσ : NeverFails σ) (h : Allocated m L) (hleaf : Leaf N L slot q c)
    (habs : slot.recordOffset = 0) :
    Ensures allocRecord m (fun r m' => Next L (.reserved slot r) m') (fun _ m' => Next L .idle m') := by
  apply (allocRecord_spec h).mono
  · intro r m' hr
    obtain ⟨A, htake, hA, hi⟩ := hr
    obtain ⟨hptr, -, hslot, -⟩ := h.valid.takeRecord htake
    rw [hleaf.slot] at habs
    exact ⟨_, .reserved h hleaf habs htake hA hi, fun p _ _ => congrFun hptr p, hslot⟩
  · intro e m' he
    cases he with
    | inl hfull =>
      obtain ⟨-, -, rfl⟩ := hfull
      exact next_same (.idle h)
    | inr hf => exact impossible hσ hf

theorem link_spec (hσ : NeverFails σ) (h : Allocated m₀ L) (hleaf : Leaf N L slot q c)
    (habs : L.ptr (q ++ [c]) = 0) (htake : L.takeRecord = some (r, A))
    (hA : Tracks m.strategy A) (hi : image m = image m₀) :
    Ensures (writeLeaf slot r) m (fun _ m' => Next (A.lose r L.slot) (.filling r) m')
      (fun _ m' => Next (A.lose r L.slot) .idle m') := by
  obtain ⟨hptr, -, hslot, -, hbump, -, -, -, hlo, hhi⟩ := h.valid.takeRecord htake
  have hlen := hleaf.length
  have hN : 0 < N := by omega
  have hlt := node_lt h.valid hN hleaf.node (by omega)
  have hd := (taken_apart h.valid hN htake).1 q hleaf.node
  rw [spanOf_node (by omega)] at hd
  rw [writeLeaf, hleaf.slot]
  apply (writeSlot_spec m hlt).mono
  · intro _ m' hw
    obtain ⟨hs', hi'⟩ := hw
    rw [hi] at hi'
    have he : Edit (image m₀) (image m') (L.ptr q) c r r (r + L.slot) := by
      rw [hi']
      exact (Framed.refl ..).edit_slot hd (by omega)
    have hroot : RootEdge (image m').length := by
      rw [hi', length_setSlot]
      apply rootEdge_slotWrite h.tree.root
      by_cases hq : q = []
      · exact .inl (hq ▸ h.valid.root)
      · exact .inr (h.tree.nodes q hq (by omega) hleaf.node)
    have hslot8 := h.valid.slot_ge
    have hplaced := h.place (v := []) hN htake hleaf.node hlen habs (by simpa using hslot8)
      (by decide) (hs' ▸ hA) he hroot
    have hptr' : (A.place (q ++ [c]) r []).ptr (q ++ [c]) = r := by simp
    have hr : r ≠ 0 := by
      rw [rootEnd_eq] at hlo
      omega
    have hgrows : Grows N (A.lose r L.slot) (A.place (q ++ [c]) r []) :=
      grows_update hlen place_ptr rfl
    refine ⟨_, ?_, hgrows⟩
    have hfilling := Standing.filling hplaced (p := q ++ [c]) (by simpa using hlen) (by rwa [hptr'])
    rwa [hptr'] at hfilling
  · intro e m' he
    exact impossible hσ he

theorem fill_spec (hσ : NeverFails σ) (h : Allocated m L) (hN : 0 < N) {p : List Coord}
    (hlen : p.length = N) (hp : L.ptr p ≠ 0) {offset : ℕ} {data : Bytes} (hdata : data ≠ [])
    (hlo : L.ptr p ≤ offset) (hhi : offset + data.length ≤ L.ptr p + L.slot) :
    Ensures (onOrigin (Origin.write offset data)) m
      (fun _ m' => Next L (.filling (L.ptr p)) m') (fun _ m' => Next L .idle m') := by
  have hne : p ≠ [] := List.ne_nil_of_length_pos (by omega)
  have hlower := h.valid.entry_lower hne hp
  have hupper := h.valid.entry_upper hne hp
  have hbump := h.valid.bump_lt
  rw [spanOf_record hlen] at hupper
  apply (writeOrigin_spec m hdata (by omega)).mono
  · intro _ m' hw
    obtain ⟨hs, hi⟩ := hw
    have hf : Framed (image m) (image m') (L.ptr p) (L.ptr p + L.slot) :=
      hi ▸ framed_overlay hlo hhi
    have hroot : RootEdge (image m').length := by
      apply rootEdge_of_le
      rw [hi, length_overlay]
      omega
    exact next_same (.filling (h.fill hN hlen hp hs hf hroot) hlen hp)
  · intro e m' he
    exact impossible hσ he

theorem free_spec (hσ : NeverFails σ) (h : Allocated m L) (hN : 0 < N) (key : CoordPath N)
    (hp : (L.resolve [] key.coords).recordOffset ≠ 0) :
    Ensures (freeRecord (L.resolve [] key.coords).recordOffset) m
      (fun _ m' => Next L (.freed (L.resolve [] key.coords)) m') (fun _ m' => Next L .idle m') := by
  obtain ⟨q, c, hq, hlen⟩ := coords_split hN key
  rw [recordOffset_resolve h.valid hN] at hp ⊢
  rw [hq] at hp ⊢
  have hup := h.valid.entry_upper (by simp) hp
  have hbump := h.valid.bump_lt
  have hslot := h.valid.slot_ge
  rw [spanOf_record (by simpa using hlen)] at hup
  rw [freeRecord, ensures_bind, ensures_get]
  apply (writeFree_spec m (by omega)).bind
  · intro _ m₁ hw
    obtain ⟨hs, hi⟩ := hw
    rw [h.fields.freeHead] at hi
    rw [ensures_modify]
    have hleaf := leaf_resolve (c := c) h.valid hlen (h.valid.parent hp)
    apply next_same
    apply Standing.freed h hleaf hp
    · rw [hs]
    · exact hi
  · intro e m' he
    exact impossible hσ he

theorem unlink_spec (hσ : NeverFails σ) (h : Allocated m₀ L) (hleaf : Leaf N L slot q c)
    (hp : L.ptr (q ++ [c]) ≠ 0)
    (hm : m.strategy = { m₀.strategy with freeHead := L.ptr (q ++ [c]) })
    (hi : image m = overlay (image m₀) (L.ptr (q ++ [c])) (encode 8 (L.free.headD 0))) :
    Ensures (writeLeaf slot 0) m (fun _ m' => Next L .idle m') (fun _ m' => Next L .idle m') := by
  have hlen := hleaf.length
  have hN : 0 < N := by omega
  have hlt := node_lt h.valid hN hleaf.node (by omega)
  rw [writeLeaf, hleaf.slot]
  apply (writeSlot_spec m hlt).mono
  · intro _ m' hw
    obtain ⟨hs, hi'⟩ := hw
    rw [hi] at hi'
    have hreleased := h.release hN (by simpa using hlen) hp (hs.trans hm) hi'
    exact ⟨_, .idle hreleased, grows_update hlen release_ptr rfl⟩
  · intro e m' he
    exact impossible hσ he

/-- What one call preserves. -/
theorem call_spec (hσ : NeverFails σ) (hN : 0 < N) {x : BindingProgram N σ Phase}
    (h : Standing phase m L) (hcall : Call L.slot phase x) :
    Ensures x m (fun next m' => Next L next m') (fun _ m' => Next L .idle m') := by
  cases hcall with
  | create key =>
    rw [ensures_map]
    cases h with
    | idle h => exact create_spec hσ h hN key
  | look key =>
    rw [ensures_map]
    cases h with
    | idle h =>
      apply (locate_spec h.valid h.tree hN key).mono
      · intro slot m' hs
        obtain ⟨rfl, hs⟩ := hs
        exact next_same (.seen (h.congr hs) key)
      · intro e m' he
        exact impossible hσ he
  | reuse slot hlinked =>
    rw [ensures_pure]
    cases h with
    | found h hleaf =>
      have hlen := hleaf.length
      rw [hleaf.slot] at hlinked ⊢
      exact next_same (.filling h (by simpa using hlen) hlinked)
  | alloc slot habs =>
    rw [ensures_map]
    cases h with
    | found h hleaf => exact alloc_spec hσ h hleaf habs
  | link slot record =>
    rw [ensures_map]
    cases h with
    | reserved h hleaf habs htake hA hi => exact link_spec hσ h hleaf habs htake hA hi
  | fill record offset data hdata hlo hhi =>
    rw [ensures_map]
    cases h with
    | filling h hlen hp => exact fill_spec hσ h hN hlen hp hdata hlo hhi
  | free slot hlinked =>
    rw [ensures_map]
    cases h with
    | seen h key => exact free_spec hσ h hN key hlinked
  | unlink slot =>
    rw [ensures_map]
    cases h with
    | freed h hleaf hp hm hi => exact unlink_spec hσ h hleaf hp hm hi
  | read phase offset len =>
    rw [ensures_map]
    apply (readOrigin_spec m offset len).mono
    · intro _ m' hr
      exact next_same (h.congr hr.2)
    · intro e m' he
      exact impossible hσ he
  | leaveFound slot =>
    rw [ensures_pure]
    cases h with
    | found h => exact next_same (.idle h)
  | leaveSeen slot =>
    rw [ensures_pure]
    cases h with
    | seen h => exact next_same (.idle h)
  | leaveFilling record =>
    rw [ensures_pure]
    cases h with
    | filling h => exact next_same (.idle h)

theorem use_step (hσ : NeverFails σ) (hN : 0 < N) {s s' : Phase × Mount N σ}
    (hstep : Use L.slot s s') (h : Standing s.1 s.2 L) : Next L s'.1 s'.2 := by
  cases hstep with
  | done hcall hx => exact (call_spec hσ hN h hcall).ok hx
  | failed hcall hx => exact (call_spec hσ hN h hcall).error hx

/-- What a run preserves. -/
theorem uses_run (hσ : NeverFails σ) (hN : 0 < N) {s s' : Phase × Mount N σ}
    (hrun : Uses L.slot s s') (h : Standing s.1 s.2 L) : Next L s'.1 s'.2 := by
  induction hrun with
  | refl => exact next_same h
  | tail _ hstep ih =>
    obtain ⟨L', h', hgrows⟩ := ih
    rw [← hgrows.slot] at hstep
    obtain ⟨L'', h'', hgrows'⟩ := use_step hσ hN hstep h'
    exact ⟨L'', h'', hgrows.trans hgrows'⟩

section
variable {w size : ℕ} {α β : Type} {next : α → Phase}

/-- From `phase`, the program makes calls that lead to `next` of its result, or to the idle
phase when it fails. -/
def Makes (size : ℕ) (phase : Phase) (x : MapProgram w N σ α) (next : α → Phase) : Prop :=
  ∀ st, Ensures x st (fun a st' => Uses size (phase, st.mount) (next a, st'.mount))
    (fun _ st' => Uses size (phase, st.mount) (.idle, st'.mount))

/-- The map may return in this phase. -/
def Leaves (N : ℕ) (σ : Type) [Origin σ] (size : ℕ) (phase : Phase) : Prop :=
  ∀ m : Mount N σ, Uses size (phase, m) (.idle, m)

theorem Makes.bind {x : MapProgram w N σ α} {f : α → MapProgram w N σ β} {last : β → Phase}
    (hx : Makes size phase x next) (hf : ∀ a, Makes size (next a) (f a) last) :
    Makes size phase (x >>= f) last := by
  intro st
  apply (hx st).andThen
  intro a st' hrun
  exact (hf a st').mono (fun _ _ h => hrun.trans h) fun _ _ h => hrun.trans h

theorem Makes.ite {p : Prop} [Decidable p] {x y : MapProgram w N σ α}
    (hx : p → Makes size phase x next) (hy : ¬p → Makes size phase y next) :
    Makes size phase (if p then x else y) next := fun st =>
  ensures_ite (fun h => hx h st) fun h => hy h st

/-- A program that leaves the mount alone. -/
theorem makes_of_keeps (hl : Leaves N σ size phase) {x : MapProgram w N σ α}
    (hx : Keeps CoordMapStore.mount x) : Makes size phase x fun _ => phase := by
  intro st
  apply (hx st).mono
  · intro _ st' hs
    rw [hs]
  · intro _ st' hs
    rw [hs]
    exact hl st.mount

/-- The last step of a call of the map. -/
theorem makes_pure (hl : Leaves N σ size phase) (a : α) :
    Makes size phase (pure a : MapProgram w N σ α) fun _ => .idle :=
  fun st => ensures_pure.mpr (hl st.mount)

/-- The last step after noting the call in the fields of the map. -/
theorem makes_finish (hl : Leaves N σ size phase) {f : CoordMapStore w N σ → CoordMapStore w N σ}
    (hf : ∀ st, (f st).mount = st.mount) (a : α) :
    Makes size phase (do
      modify f
      pure a : MapProgram w N σ α) fun _ => .idle :=
  (makes_of_keeps hl (keeps_modify hf)).bind fun _ => makes_pure hl a

/-- A phase that leads to another one without a call. -/
theorem Makes.after {start : Phase} (hstart : ∀ m : Mount N σ, Uses size (start, m) (phase, m))
    {x : MapProgram w N σ α} (hx : Makes size phase x next) : Makes size start x next :=
  fun st => (hx st).mono (fun _ _ h => (hstart st.mount).trans h)
    fun _ _ h => (hstart st.mount).trans h

theorem makes_strategy {x : BindingProgram N σ α} (hcall : Call size phase (next <$> x)) :
    Makes size phase (onStrategy x : MapProgram w N σ α) next := by
  intro st
  rw [onStrategy, ensures_focus]
  have hmap : Ensures (next <$> x) st.mount (fun n m => Uses size (phase, st.mount) (n, m))
      (fun _ m => Uses size (phase, st.mount) (.idle, m)) :=
    ⟨fun hx => .single (.done hcall hx), fun hx => .single (.failed hcall hx)⟩
  exact ensures_map.mp hmap

theorem makes_origin {x : EStateM (Stop OriginError) σ α}
    (hcall : Call size phase ((next <$> onOrigin x : BindingProgram N σ Phase))) :
    Makes size phase (onMapOrigin x : MapProgram w N σ α) next := by
  intro st
  have hstrategy := makes_strategy (w := w) hcall st
  rw [onStrategy, ensures_focus, onOrigin, ensures_focus] at hstrategy
  rw [onMapOrigin, ensures_focus]
  exact hstrategy

theorem makes_add (hl : Leaves N σ size phase) {a b : ℕ} {f : ℕ → MapProgram w N σ α}
    (hf : Makes size phase (f (a + b)) next) : Makes size phase (addU64 a b >>= f) next := by
  intro st
  rw [addU64, ite_bind, pure_bind, throw_bind]
  exact ensures_ite (fun _ => hf st) fun _ => ensures_throw.mpr (hl st.mount)

theorem makes_throw (hl : Leaves N σ size phase) (e : Stop MapError) :
    Makes size phase (throw e : MapProgram w N σ α) next :=
  fun st => ensures_throw.mpr (hl st.mount)

theorem leaves_found (slot : Slot) : Leaves N σ size (.found slot) :=
  fun _ => .single (.done (.leaveFound slot) rfl)

theorem leaves_seen (slot : Slot) : Leaves N σ size (.seen slot) :=
  fun _ => .single (.done (.leaveSeen slot) rfl)

theorem leaves_filling (record : ℕ) : Leaves N σ size (.filling record) :=
  fun _ => .single (.done (.leaveFilling record) rfl)

theorem makes_read (offset len : ℕ) :
    Makes size phase (onMapOrigin (Origin.read offset len) : MapProgram w N σ Bytes) fun _ => phase :=
  makes_origin (.read phase offset len)

theorem makes_readRecord (hl : Leaves N σ size phase) (offset : ℕ) :
    Makes size phase (readRecord offset : MapProgram w N σ Bytes) fun _ => phase := by
  rw [readRecord]
  apply (makes_read offset lengthBytes).bind
  intro header
  apply Makes.ite (fun _ => makes_throw hl _)
  intro _
  apply (makes_of_keeps hl keeps_maxValueLen).bind
  intro maxLen
  apply Makes.ite (fun _ => makes_throw hl _)
  intro _
  have hvec : Makes size phase
      (vecZeroed (asUsize w (decode header)) : MapProgram w N σ Unit) fun _ => phase :=
    makes_of_keeps hl (Keeps.ite (Keeps.pure _) (Keeps.throw _))
  apply hvec.bind
  intro _
  apply makes_add hl
  apply (makes_read _ _).bind
  intro value
  apply Makes.ite (fun _ => makes_throw hl _)
  exact fun _ => makes_of_keeps hl (Keeps.pure value)

theorem makes_writeRecord (record : ℕ) {value : Bytes} (hfit : value.length + 8 ≤ size) :
    Makes size (.filling record) (writeRecord record value : MapProgram w N σ Unit)
      fun _ => .filling record := by
  have hlength : lengthBytes = 8 := rfl
  rw [writeRecord]
  have hheader : Makes size (.filling record)
      (onMapOrigin (Origin.write record (encode 8 value.length)) : MapProgram w N σ Unit)
      fun _ => .filling record := by
    apply makes_origin
    apply Call.fill record record
    · exact List.ne_nil_of_length_pos (by simp)
    · exact le_rfl
    · rw [length_encode]
      omega
  apply hheader.bind
  intro _
  apply Makes.ite
  · exact fun _ => makes_of_keeps (leaves_filling record) (Keeps.pure _)
  · intro hvalue
    apply makes_add (leaves_filling record)
    apply makes_origin
    exact .fill record (record + lengthBytes) value hvalue (by omega) (by omega)

theorem makes_overwrite {slot : Slot} (hslot : slot.recordOffset ≠ 0) {value : Bytes}
    (hfit : value.length + 8 ≤ size) :
    Makes size (.found slot) (do
      let prev ← readRecord slot.recordOffset
      writeRecord slot.recordOffset value
      modify fun st => { st with dirty := true }
      pure (some prev) : MapProgram w N σ (Option Bytes)) fun _ => .idle := by
  apply (makes_readRecord (leaves_found slot) slot.recordOffset).bind
  intro prev
  apply Makes.after fun _ => .single (.done (.reuse slot hslot) rfl)
  apply (makes_writeRecord slot.recordOffset hfit).bind
  intro _
  apply makes_finish (leaves_filling _)
  exact fun _ => rfl

theorem makes_insert {slot : Slot} (hslot : slot.recordOffset = 0) {value : Bytes}
    (hfit : value.length + 8 ≤ size) :
    Makes size (.found slot) (do
      let record ← onStrategy allocRecord
      onStrategy (writeLeaf slot record)
      bumpLen
      writeRecord record value
      modify fun st => { st with dirty := true }
      pure none : MapProgram w N σ (Option Bytes)) fun _ => .idle := by
  apply (makes_strategy (.alloc slot hslot)).bind
  intro record
  apply (makes_strategy (.link slot record)).bind
  intro _
  have hbump : Keeps CoordMapStore.mount (bumpLen : MapProgram w N σ Unit) := by
    apply keeps_get_bind
    intro st
    exact ensures_ite (fun _ => ensures_set.mpr rfl) fun _ => ensures_throw.mpr rfl
  apply (makes_of_keeps (leaves_filling record) hbump).bind
  intro _
  apply (makes_writeRecord record hfit).bind
  intro _
  apply makes_finish (leaves_filling record)
  exact fun _ => rfl

theorem putPath_uses {st : CoordMapStore w N σ} (hsize : st.mount.strategy.recordSlotSize = size)
    (path : CoordPath N) (value : Bytes) :
    Ensures (putPath path value) st
      (fun _ st' => Uses size (.idle, st.mount) (.idle, st'.mount))
      (fun _ st' => Uses size (.idle, st.mount) (.idle, st'.mount)) := by
  rw [putPath, maxValueLen, bind_assoc, ensures_bind, ensures_get, CoordMapStore.recordSlotSize,
    hsize, ite_bind, throw_bind, pure_bind]
  apply ensures_ite (fun _ => ensures_throw.mpr .refl)
  intro hmax
  apply ensures_ite (fun _ => ensures_throw.mpr .refl)
  intro hvalue
  have hle : asUsize w size ≤ size := Nat.mod_le ..
  have hlength : lengthBytes = 8 := rfl
  have hfit : value.length + 8 ≤ size := by omega
  refine Makes.bind (makes_strategy (.create path)) (fun slot => ?_) st
  exact Makes.ite (fun hslot => makes_overwrite hslot hfit)
    fun hslot => makes_insert (not_not.mp hslot) hfit

theorem removePath_uses (path : CoordPath N) :
    Makes size .idle (removePath path : MapProgram w N σ (Option Bytes)) fun _ => .idle := by
  rw [removePath]
  apply (makes_strategy (.look path)).bind
  intro slot
  apply Makes.ite
  · exact fun _ => makes_pure (leaves_seen slot) none
  intro hslot
  apply (makes_readRecord (leaves_seen slot) slot.recordOffset).bind
  intro prev
  apply (makes_strategy (.free slot hslot)).bind
  intro _
  apply (makes_strategy (.unlink slot)).bind
  intro _
  apply makes_finish (fun _ => .refl)
  exact fun _ => rfl

theorem getPath_uses (path : CoordPath N) :
    Makes size .idle (getPath path : MapProgram w N σ (Option Bytes)) fun _ => .idle := by
  rw [getPath]
  apply (makes_strategy (.look path)).bind
  intro slot
  apply Makes.ite
  · exact fun _ => makes_pure (leaves_seen slot) none
  intro _
  apply (makes_readRecord (leaves_seen slot) slot.recordOffset).bind
  exact fun value => makes_pure (leaves_seen slot) _

end

end Chton.StrategyUses
