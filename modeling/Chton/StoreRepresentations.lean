import Chton.StrategyCalls

/-!
# Mounts that represent layouts

A mount represents a layout when the strategy fields and the bytes of the origin agree
with it. The lemmas below carry a representation over the byte changes of the store's
steps: a node or a record cut off and lost, a node linked, a record placed, rewritten
or released.
-/

namespace Chton.StoreRepresentations
open ByteRegions LittleEndianWords Origins TreeStrategyProgram CoordMapProgram
open StoreLayouts StoreLayouts.Layout LayoutImages ImageEdits StrategyCalls

variable {N : ℕ} {σ : Type} [ByteOrigin σ]

structure Tracks (s : TreeStrategy N) (L : Layout) : Prop where
  bump : s.bump = L.bump
  slot : s.recordSlotSize = L.slot
  freeHead : s.freeHead = L.free.headD 0
  nodeSize : s.nodeSize = nodeSpan

structure Represents (m : Mount N σ) (L : Layout) : Prop where
  valid : L.Valid N
  fields : Tracks m.strategy L
  stored : Image N (image m) L

/-- The nodes alone: records, free list and free head may say anything. -/
structure TreeAt (m : Mount N σ) (L : Layout) : Prop where
  valid : L.Valid N
  bump : m.strategy.bump = L.bump
  nodeSize : m.strategy.nodeSize = nodeSpan
  tree : TreeImage N (image m) L

/-- The nodes, the free list and the allocator's fields; the payloads may say anything. -/
structure Allocated (m : Mount N σ) (L : Layout) : Prop where
  valid : L.Valid N
  fields : Tracks m.strategy L
  tree : TreeImage N (image m) L
  chain : FreeChain (image m) L.free

/-- What lookups need: the allocator's fields may say anything. -/
structure Readable (m : Mount N σ) (L : Layout) : Prop where
  valid : L.Valid N
  slot : m.strategy.recordSlotSize = L.slot
  stored : Image N (image m) L

variable {m m' : Mount N σ} {L A : Layout} {q : List Coord} {c : Coord} {r : ℕ} {v : Bytes}

/-- The bitmaps keep up with the layout, and the bytes before the root stay as they are. -/
structure Follows (m : Mount N σ) (L : Layout) (m' : Mount N σ) (L' : Layout) : Prop where
  synced : Synced N (image m) L → Synced N (image m') L'
  header : Framed (image m) (image m') rootOffset (2 ^ 64)

theorem Follows.trans {m m₁ m' : Mount N σ} {L L₁ L' : Layout} (h : Follows m L m₁ L₁)
    (h' : Follows m₁ L₁ m' L') : Follows m L m' L' :=
  ⟨fun hs => h'.synced (h.synced hs), h.header.trans h'.header⟩

theorem follows_of_same {m m' : Mount N σ} (h : Same m m') (L : Layout) : Follows m L m' L :=
  ⟨fun hs => h.image.symm ▸ hs, h.image.symm ▸ Framed.refl ..⟩

theorem Represents.congr (h : Represents m L) (hs : Same m m') : Represents m' L :=
  ⟨h.valid, hs.strategy ▸ h.fields, hs.image ▸ h.stored⟩

theorem Represents.readable (h : Represents m L) : Readable m L := ⟨h.valid, h.fields.slot, h.stored⟩

theorem Represents.allocated (h : Represents m L) : Allocated m L :=
  ⟨h.valid, h.fields, h.stored.tree, h.stored.chain⟩

theorem Allocated.represents (h : Allocated m L) (hrec : Payloads N (image m) L) : Represents m L :=
  ⟨h.valid, h.fields, h.tree.image h.chain hrec⟩

theorem Allocated.treeAt (h : Allocated m L) : TreeAt m L :=
  ⟨h.valid, h.fields.bump, h.fields.nodeSize, h.tree⟩

theorem Represents.treeAt (h : Represents m L) : TreeAt m L := h.allocated.treeAt

theorem Allocated.congr (h : Allocated m L) (hs : Same m m') : Allocated m' L :=
  ⟨h.valid, hs.strategy ▸ h.fields, hs.image ▸ h.tree, hs.image ▸ h.chain⟩

theorem TreeAt.congr (h : TreeAt m L) (hs : Same m m') : TreeAt m' L :=
  ⟨h.valid, hs.strategy ▸ h.bump, hs.strategy ▸ h.nodeSize, hs.image ▸ h.tree⟩

theorem Readable.congr (h : Readable m L) (hs : Same m m') : Readable m' L :=
  ⟨h.valid, hs.strategy ▸ h.slot, hs.image ▸ h.stored⟩

theorem node_bounds (h : L.Valid N) (hN : 0 < N) (hq : L.ptr q ≠ 0) (hlen : q.length < N) :
    rootOffset ≤ L.ptr q ∧ L.ptr q + nodeSpan < 2 ^ 64 := by
  have hup := h.span_le_bump hN hq
  have hbump := h.bump_lt
  rw [spanOf_node hlen] at hup
  refine ⟨?_, by omega⟩
  by_cases h0 : q = []
  · rw [h0, h.root]
  · exact (Nat.le_add_right ..).trans (h.entry_lower h0 hq)

/-- A node area was cut off; its bytes may or may not have been zeroed. -/
theorem TreeAt.loseNode (h : TreeAt m L) (hN : 0 < N) (hfit : L.bump + nodeSpan < 2 ^ 64)
    (hs : m'.strategy = { m.strategy with bump := L.bump + nodeSpan })
    (hf : Framed (image m) (image m') L.bump (L.bump + nodeSpan))
    (hroot : RootEdge (image m').length) : TreeAt m' L.loseNode where
  valid := h.valid.loseNode hfit
  bump := by
    rw [hs]
    rfl
  nodeSize := by
    rw [hs]
    exact h.nodeSize
  tree := by
    have htree : TreeImage N (image m') L := by
      apply treeImage_outside h.tree hf hroot
      intro p hp hpp
      have hup := h.valid.span_le_bump hN hpp
      rw [spanOf_node hp] at hup
      exact .inl hup
    exact ⟨htree.slots, htree.nodes, htree.root⟩

theorem Allocated.loseNode (h : Allocated m L) (hN : 0 < N) (hfit : L.bump + nodeSpan < 2 ^ 64)
    (hs : m'.strategy = { m.strategy with bump := L.bump + nodeSpan })
    (hf : Framed (image m) (image m') L.bump (L.bump + nodeSpan))
    (hroot : RootEdge (image m').length) : Allocated m' L.loseNode := by
  have htree := h.treeAt.loseNode hN hfit hs hf hroot
  refine ⟨htree.valid, ⟨htree.bump, ?_, ?_, htree.nodeSize⟩, htree.tree, ?_⟩
  · rw [hs]
    exact h.fields.slot
  · rw [hs]
    exact h.fields.freeHead
  · apply chain_outside h.chain hf
    intro a ha
    have := h.valid.free_upper ha
    have := h.valid.slot_ge
    omega

theorem Represents.loseNode (h : Represents m L) (hN : 0 < N) (hfit : L.bump + nodeSpan < 2 ^ 64)
    (hs : m'.strategy = { m.strategy with bump := L.bump + nodeSpan })
    (hf : Framed (image m) (image m') L.bump (L.bump + nodeSpan))
    (hroot : RootEdge (image m').length) : Represents m' L.loseNode := by
  apply (h.allocated.loseNode hN hfit hs hf hroot).represents
  have hrec : Payloads N (image m') L := by
    apply records_outside h.valid h.stored.records hf
    intro p hp hpp
    have hup := h.valid.span_le_bump hN hpp
    rw [spanOf_record hp] at hup
    exact .inl hup
  exact hrec

/-- What the bytes look like once the node at `bump` is zeroed and its slot is written. -/
structure NodeLinked (b b' : Bytes) (n : ℕ) (c : Coord) (bump : ℕ) : Prop where
  edit : Edit b b' n c bump bump (bump + nodeSpan)
  zero : ∀ i, bump ≤ i → i < bump + nodeSpan → peek b' i = 0
  room : bump + nodeSpan ≤ b'.length

theorem slots_link (hv : L.Valid N) (habs : L.ptr (q ++ [c]) = 0) {b b' : Bytes} {n : ℕ}
    (hb : NodeLinked b b' n c L.bump) (c' : Coord) :
    wordAt b' (slotAddr L.bump c') = (L.link (q ++ [c])).ptr (q ++ [c] ++ [c']) := by
  have hge := slotAddr_ge L.bump c'
  have hle := slotAddr_le L.bump c'
  rw [link_ptr, Function.update_of_ne (Ne.symm (ne_append_singleton _ c')), hv.below _ c' habs]
  exact wordAt_zero fun i _ _ => hb.zero i (by omega) (by omega)

/-- The new node lies behind all others. -/
theorem TreeAt.link (h : TreeAt m L) (hN : 0 < N) (hq : L.ptr q ≠ 0)
    (hlen : q.length + 1 < N) (habs : L.ptr (q ++ [c]) = 0) (hfit : L.bump + nodeSpan < 2 ^ 64)
    (hs : m'.strategy = { m.strategy with bump := L.bump + nodeSpan })
    (hb : NodeLinked (image m) (image m') (L.ptr q) c L.bump) :
    TreeAt m' (L.link (q ++ [c])) where
  valid := h.valid.link hq hlen habs hfit
  bump := by
    rw [hs]
    rfl
  nodeSize := by
    rw [hs]
    exact h.nodeSize
  tree := by
    have hbump := h.valid.bump_ge
    apply treeImage_edit h.valid hN h.tree hq (by omega) hb.edit
      (rootEdge_of_le (by have := hb.room; omega)) rfl
    · intro p _ _ hp hpp
      have hup := h.valid.span_le_bump hN hpp
      rw [spanOf_node hp] at hup
      exact .inl hup
    · exact fun _ _ => ⟨hb.room, slots_link h.valid habs hb⟩

theorem Allocated.link (h : Allocated m L) (hN : 0 < N) (hq : L.ptr q ≠ 0)
    (hlen : q.length + 1 < N) (habs : L.ptr (q ++ [c]) = 0) (hfit : L.bump + nodeSpan < 2 ^ 64)
    (hs : m'.strategy = { m.strategy with bump := L.bump + nodeSpan })
    (hb : NodeLinked (image m) (image m') (L.ptr q) c L.bump) :
    Allocated m' (L.link (q ++ [c])) := by
  have htree := h.treeAt.link hN hq hlen habs hfit hs hb
  refine ⟨htree.valid, ⟨htree.bump, ?_, ?_, htree.nodeSize⟩, htree.tree, ?_⟩
  · rw [hs]
    exact h.fields.slot
  · rw [hs]
    exact h.fields.freeHead
  · have hslot := h.valid.slot_ge
    apply chain_edit h.chain hb.edit
    · intro a ha
      have hd := h.valid.apart_free hN hq ha
      rw [spanOf_node (by omega)] at hd
      omega
    · intro a ha
      have := h.valid.free_upper ha
      omega

theorem Represents.link (h : Represents m L) (hN : 0 < N) (hq : L.ptr q ≠ 0)
    (hlen : q.length + 1 < N) (habs : L.ptr (q ++ [c]) = 0) (hfit : L.bump + nodeSpan < 2 ^ 64)
    (hs : m'.strategy = { m.strategy with bump := L.bump + nodeSpan })
    (hb : NodeLinked (image m) (image m') (L.ptr q) c L.bump) :
    Represents m' (L.link (q ++ [c])) := by
  apply (h.allocated.link hN hq hlen habs hfit hs hb).represents
  apply records_edit h.valid hN h.stored.records hq (by omega) hb.edit (link_ptr)
    fun p _ => congrFun link_val p
  · intro p _ hp hpp
    have hup := h.valid.span_le_bump hN hpp
    rw [spanOf_record hp] at hup
    exact .inl hup
  · exact fun hrec => absurd hrec (by omega)

theorem follows_link (h : L.Valid N) (hN : 0 < N) (hq : L.ptr q ≠ 0)
    (hlen : q.length + 1 < N) (habs : L.ptr (q ++ [c]) = 0)
    (hfit : L.bump + nodeSpan < 2 ^ 64)
    (hb : NodeLinked (image m) (image m') (L.ptr q) c L.bump)
    (hbits : ∀ c', Occupied (image m') (L.ptr q) c' ↔
      if c' = c then L.bump ≠ 0 else Occupied (image m) (L.ptr q) c') :
    Follows m L m' (L.link (q ++ [c])) := by
  obtain ⟨hlo, hhi⟩ := node_bounds h hN hq (by omega)
  have hbump := (Nat.le_add_right ..).trans h.bump_ge
  refine ⟨fun hsync => ?_, hb.edit.framed_area hlo hhi.le hbump hfit.le⟩
  refine synced_edit h hN hsync hq (by omega) hb.edit hbits rfl
    (fun p _ _ hp => .inl (h.span_le_bump hN hp)) fun _ _ c' => ⟨?_, ?_⟩
  · have hge := bitAddr_ge L.bump c'
    have hlt := bitAddr_lt L.bump c'
    have : nodeSpan = 90773 := rfl
    rw [Occupied, hb.zero _ hge (by omega)]
    simp
  · rw [link_ptr, Function.update_of_ne (Ne.symm (ne_append_singleton _ c')),
      h.below _ c' habs]

/-- The free chain below a record that is taken or kept. -/
theorem Allocated.takeRecord_chain (h : Allocated m L) (htake : L.takeRecord = some (r, A)) :
    FreeChain (image m) A.free := by
  rcases takeRecord_cases htake with ⟨fs, hfree, rfl⟩ | ⟨hfree, -, -, rfl⟩
  · have hchain := h.chain
    rw [hfree] at hchain
    exact hchain.2.2
  · rw [hfree]
    trivial

/-- A record slot was taken and nothing refers to it. -/
theorem Allocated.loseRecord (h : Allocated m L) (htake : L.takeRecord = some (r, A))
    (hs : Tracks m'.strategy A) (hi : image m' = image m) :
    Allocated m' (A.lose r L.slot) := by
  obtain ⟨hptr, -, -⟩ := h.valid.takeRecord htake
  refine ⟨h.valid.loseRecord htake, ⟨hs.bump, hs.slot, hs.freeHead, hs.nodeSize⟩, ?_,
    ?_⟩
  · rw [hi]
    exact ⟨hptr ▸ h.tree.slots, hptr ▸ h.tree.nodes, h.tree.root⟩
  · have hchain := h.takeRecord_chain htake
    exact hi ▸ hchain

theorem Represents.loseRecord (h : Represents m L) (htake : L.takeRecord = some (r, A))
    (hs : Tracks m'.strategy A) (hi : image m' = image m) :
    Represents m' (A.lose r L.slot) := by
  obtain ⟨hptr, hval, -⟩ := h.valid.takeRecord htake
  apply (h.allocated.loseRecord htake hs hi).represents
  rw [hi]
  intro p hp hpp
  have hpp' : A.ptr p ≠ 0 := hpp
  have hrec : RecordAt (image m) (A.ptr p) (A.val p) := by
    rw [hptr] at hpp' ⊢
    rw [hval]
    exact h.stored.records p hp hpp'
  exact hrec

/-- The slot of a taken record does not meet any linked or still free span. -/
theorem taken_apart (h : L.Valid N) (hN : 0 < N) (htake : L.takeRecord = some (r, A)) :
    (∀ p, L.ptr p ≠ 0 → L.ptr p + L.spanOf N p ≤ r ∨ r + L.slot ≤ L.ptr p) ∧
      ∀ a ∈ A.free, a + L.slot ≤ r ∨ r + L.slot ≤ a := by
  have hnew := h.takeRecord htake
  rcases takeRecord_cases htake with ⟨fs, hfree, rfl⟩ | ⟨hfree, -, rfl, rfl⟩
  · have hr : r ∈ L.free := by simp [hfree]
    refine ⟨fun p hp => h.apart_free hN hp hr, fun a ha => ?_⟩
    have hne : a ≠ r := by
      rintro rfl
      exact hnew.2.2.2.2.2.2.1 ha
    exact h.apart_free_free (by simp only [hfree, List.mem_cons]; exact .inr ha) hr hne
  · refine ⟨fun p hp => .inl (h.span_le_bump hN hp), fun a ha => ?_⟩
    rw [hfree] at ha
    cases ha

def placed (b : Bytes) (n : ℕ) (c : Coord) (r : ℕ) (v : Bytes) : Bytes :=
  setRecord (setSlot b n c r) r v

theorem edit_placed {b : Bytes} {n s : ℕ} (hr : r < 2 ^ 64) (hfit : v.length + 8 ≤ s)
    (hd : n + nodeSpan ≤ r ∨ r + s ≤ n) : Edit b (placed b n c r v) n c r r (r + s) :=
  ((Framed.refl b r (r + s)).edit_slot hd hr).framed (framed_setRecord le_rfl (by omega)) hd

theorem Allocated.place (h : Allocated m L) (hN : 0 < N) (htake : L.takeRecord = some (r, A))
    (hq : L.ptr q ≠ 0) (hlen : q.length + 1 = N) (habs : L.ptr (q ++ [c]) = 0)
    (hfit : v.length + 8 ≤ L.slot) (hsized : v.length < 2 ^ 63) (hs : Tracks m'.strategy A)
    (he : Edit (image m) (image m') (L.ptr q) c r r (r + L.slot))
    (hroot : RootEdge (image m').length) : Allocated m' (A.place (q ++ [c]) r v) where
  valid := h.valid.place htake hq hlen habs hfit hsized
  fields := ⟨hs.bump, hs.slot, hs.freeHead, hs.nodeSize⟩
  tree := by
    obtain ⟨hptr, -⟩ := h.valid.takeRecord htake
    apply treeImage_edit h.valid hN h.tree hq (by omega) he hroot (by rw [place_ptr, hptr])
    · intro p _ _ hp hpp
      have hspan := (taken_apart h.valid hN htake).1 p hpp
      rwa [spanOf_node hp] at hspan
    · exact fun hlt => absurd hlt (by omega)
  chain := by
    have hslot8 := h.valid.slot_ge
    apply chain_edit (h.takeRecord_chain htake) he
    · intro a ha
      have hd := h.valid.apart_free hN hq ((h.valid.takeRecord htake).2.2.2.2.2.2.2.1 a ha)
      rw [spanOf_node (by omega)] at hd
      omega
    · intro a ha
      have := (taken_apart h.valid hN htake).2 a ha
      omega

theorem Represents.place (h : Represents m L) (hN : 0 < N) (htake : L.takeRecord = some (r, A))
    (hq : L.ptr q ≠ 0) (hlen : q.length + 1 = N) (habs : L.ptr (q ++ [c]) = 0)
    (hfit : v.length + 8 ≤ L.slot) (hsized : v.length < 2 ^ 63) (hs : Tracks m'.strategy A)
    (hi : image m' = placed (image m) (L.ptr q) c r v) :
    Represents m' (A.place (q ++ [c]) r v) := by
  obtain ⟨hptr, hval, hslot, -, hbump, -, -, -, hlo, hhi⟩ := h.valid.takeRecord htake
  have hslot8 := h.valid.slot_ge
  have hspan := (taken_apart h.valid hN htake).1
  have hd := hspan q hq
  rw [spanOf_node (by omega)] at hd
  have he : Edit (image m) (image m') (L.ptr q) c r r (r + L.slot) :=
    hi ▸ edit_placed (by omega) hfit hd
  have hroot : RootEdge (image m').length := by
    apply rootEdge_of_le
    rw [hi, placed, length_setRecord]
    omega
  apply (h.allocated.place hN htake hq hlen habs hfit hsized hs he hroot).represents
  apply records_edit h.valid hN h.stored.records hq (by omega) he (by rw [place_ptr, hptr])
  · intro p hp
    rw [place_val, Function.update_of_ne hp, hval]
  · intro p _ hp hpp
    have := hspan p hpp
    rwa [spanOf_record hp] at this
  · intro _ _
    rw [place_val, Function.update_self, hi]
    exact recordAt_setRecord (by omega)

theorem follows_place (h : Represents m L) (hN : 0 < N)
    (htake : L.takeRecord = some (r, A)) (hq : L.ptr q ≠ 0) (hlen : q.length + 1 = N)
    (hfit : v.length + 8 ≤ L.slot) (hi : image m' = placed (image m) (L.ptr q) c r v) :
    Follows m L m' (A.place (q ++ [c]) r v) := by
  obtain ⟨hptr, -, -, -, hbump, -, -, -, hlo, hhi⟩ := h.valid.takeRecord htake
  have hslot8 := h.valid.slot_ge
  obtain ⟨hspan, -⟩ := taken_apart h.valid hN htake
  have hd := hspan q hq
  rw [spanOf_node (by omega)] at hd
  have he : Edit (image m) (image m') (L.ptr q) c r r (r + L.slot) :=
    hi ▸ edit_placed (by omega) hfit hd
  obtain ⟨hnode, hnode'⟩ := node_bounds h.valid hN hq (by omega)
  refine ⟨fun hsync => ?_, he.framed_area hnode hnode'.le ((Nat.le_add_right ..).trans hlo)
    (by omega)⟩
  refine synced_edit h.valid hN hsync hq (by omega) he (fun c' => ?_) (by rw [place_ptr, hptr])
    (fun p _ _ hp => hspan p hp) fun hlt => absurd hlt (by omega)
  have hf : Framed (setSlot (image m) (L.ptr q) c r) (image m') r (r + L.slot) :=
    hi ▸ framed_setRecord le_rfl (by omega)
  exact (hf.occupied hd c').trans (occupied_setSlot c')

/-- A linked record is clear of the nodes, the free list and the other records. -/
theorem record_apart (h : L.Valid N) (hN : 0 < N) {p : List Coord} (hlen : p.length = N)
    (hp : L.ptr p ≠ 0) :
    (∀ x, x ≠ p → L.ptr x ≠ 0 → L.ptr x + L.spanOf N x ≤ L.ptr p ∨ L.ptr p + L.slot ≤ L.ptr x) ∧
      ∀ a ∈ L.free, a + 8 ≤ L.ptr p ∨ L.ptr p + L.slot ≤ a := by
  have hslot := h.slot_ge
  constructor
  · intro x hx hxp
    have hd := h.apart hN hx hxp hp
    rwa [spanOf_record hlen] at hd
  · intro a ha
    have hd := h.apart_free hN hp ha
    rw [spanOf_record hlen] at hd
    omega

/-- Bytes inside a linked record may change. -/
theorem Allocated.fill (h : Allocated m L) (hN : 0 < N) {p : List Coord} (hlen : p.length = N)
    (hp : L.ptr p ≠ 0) (hs : m'.strategy = m.strategy)
    (hf : Framed (image m) (image m') (L.ptr p) (L.ptr p + L.slot))
    (hroot : RootEdge (image m').length) : Allocated m' L where
  valid := h.valid
  fields := hs ▸ h.fields
  tree := by
    apply treeImage_outside h.tree hf hroot
    intro x hx hxp
    have hne : x ≠ p := by
      rintro rfl
      omega
    have hd := (record_apart h.valid hN hlen hp).1 x hne hxp
    rwa [spanOf_node hx] at hd
  chain := chain_outside h.chain hf (record_apart h.valid hN hlen hp).2

theorem Represents.rewrite (h : Represents m L) (hN : 0 < N) (hlen : (q ++ [c]).length = N)
    (hq : L.ptr (q ++ [c]) ≠ 0) (hfit : v.length + 8 ≤ L.slot) (hsized : v.length < 2 ^ 63)
    (hs : m'.strategy = m.strategy)
    (hi : image m' = setRecord (image m) (L.ptr (q ++ [c])) v) :
    Represents m' (L.rewrite (q ++ [c]) v) := by
  have hf : Framed (image m) (image m') (L.ptr (q ++ [c])) (L.ptr (q ++ [c]) + L.slot) :=
    hi ▸ framed_setRecord le_rfl (by omega)
  have hroot : RootEdge (image m').length := by
    have hlo := h.valid.entry_lower (by simp) hq
    apply rootEdge_of_le
    rw [hi, length_setRecord]
    omega
  have hfill := h.allocated.fill hN hlen hq hs hf hroot
  refine ⟨h.valid.rewrite hfit hsized,
    ⟨hfill.fields.bump, hfill.fields.slot, hfill.fields.freeHead, hfill.fields.nodeSize⟩, ?_⟩
  have htree : TreeImage N (image m') (L.rewrite (q ++ [c]) v) :=
    ⟨hfill.tree.slots, hfill.tree.nodes, hroot⟩
  apply htree.image hfill.chain
  intro p hp hpp
  by_cases hpq : p = q ++ [c]
  · rw [rewrite_val, hpq, Function.update_self, hi]
    exact recordAt_setRecord (by omega)
  · have hd := (record_apart h.valid hN hlen hq).1 p hpq hpp
    rw [spanOf_record hp] at hd
    have hfits := h.valid.fits p hp hpp
    rw [rewrite_val, Function.update_of_ne hpq]
    exact (h.stored.records p hp hpp).congr hf.length_le fun i _ _ => hf.same i (by omega)

theorem follows_rewrite (h : Represents m L) (hN : 0 < N)
    (hlen : (q ++ [c]).length = N) (hq : L.ptr (q ++ [c]) ≠ 0) (hfit : v.length + 8 ≤ L.slot)
    (hi : image m' = setRecord (image m) (L.ptr (q ++ [c])) v) :
    Follows m L m' (L.rewrite (q ++ [c]) v) := by
  have hlo := h.valid.entry_lower (by simp) hq
  have hhi := h.valid.entry_upper (by simp) hq
  have hbump := h.valid.bump_lt
  rw [spanOf_record hlen] at hhi
  refine ⟨fun hsync p c' hp hpp => ?_,
    hi ▸ framed_setRecord ((Nat.le_add_right ..).trans hlo) (by omega)⟩
  have hne : p ≠ q ++ [c] := by
    rintro rfl
    omega
  have hd := h.valid.apart hN hne hpp hq
  rw [spanOf_node hp, spanOf_record hlen] at hd
  have hf : Framed (image m) (image m') (L.ptr (q ++ [c])) (L.ptr (q ++ [c]) + L.slot) :=
    hi ▸ framed_setRecord le_rfl (by omega)
  exact (hf.occupied hd c').trans (hsync p c' hp hpp)

def released (b : Bytes) (n : ℕ) (c : Coord) (r head : ℕ) : Bytes :=
  setSlot (overlay b r (encode 8 head)) n c 0

theorem edit_released {b : Bytes} {n head s : ℕ} (hs : 8 ≤ s)
    (hd : n + nodeSpan ≤ r ∨ r + s ≤ n) : Edit b (released b n c r head) n c 0 r (r + s) :=
  (framed_overlay le_rfl (by simpa using hs)).edit_slot hd (by decide)

theorem Allocated.release (h : Allocated m L) (hN : 0 < N) (hlen : (q ++ [c]).length = N)
    (hq : L.ptr (q ++ [c]) ≠ 0)
    (hs : m'.strategy = { m.strategy with freeHead := L.ptr (q ++ [c]) })
    (hi : image m' = released (image m) (L.ptr q) c (L.ptr (q ++ [c])) (L.free.headD 0)) :
    Allocated m' (L.release (q ++ [c])) := by
  have hlt : q.length < N := by simp at hlen; omega
  have hp := h.valid.parent hq
  have hslot := h.valid.slot_ge
  have hlo := h.valid.entry_lower (by simp) hq
  have hrecord := record_apart h.valid hN hlen hq
  have hd := hrecord.1 q (ne_append_singleton q c) hp
  rw [spanOf_node hlt] at hd
  have he : Edit (image m) (image m') (L.ptr q) c 0 (L.ptr (q ++ [c]))
      (L.ptr (q ++ [c]) + L.slot) := hi ▸ edit_released hslot hd
  have hroom : L.ptr (q ++ [c]) + 8 ≤ (image m').length := by
    rw [hi, released, length_setSlot, length_overlay, length_encode]
    omega
  refine ⟨h.valid.release hN hlen hq, ?_, ?_, hroom, ?_, ?_⟩
  · rw [hs]
    exact ⟨h.fields.bump, h.fields.slot, rfl, h.fields.nodeSize⟩
  · apply treeImage_edit h.valid hN h.tree hp hlt he (rootEdge_of_le (by omega)) rfl
    · intro p hpn _ hlen' hpp
      have := hrecord.1 p hpn hpp
      rwa [spanOf_node hlen'] at this
    · exact fun _ h0 => absurd rfl h0
  · have hsame : wordAt (image m') (L.ptr (q ++ [c])) =
        wordAt (overlay (image m) (L.ptr (q ++ [c])) (encode 8 (L.free.headD 0)))
          (L.ptr (q ++ [c])) := by
      rw [hi]
      exact wordAt_congr fun i _ _ => peek_setSlot_outside (by omega)
    rw [hsame, wordAt_overlay]
    cases hfree : L.free with
    | nil => simp
    | cons a _ =>
      have := h.valid.free_upper (a := a) (by simp [hfree])
      have := h.valid.bump_lt
      simp only [List.headD_cons]
      omega
  · apply chain_edit h.chain he
    · intro a ha
      have hd' := h.valid.apart_free hN hp ha
      rw [spanOf_node hlt] at hd'
      omega
    · exact hrecord.2

theorem Represents.release (h : Represents m L) (hN : 0 < N) (hlen : (q ++ [c]).length = N)
    (hq : L.ptr (q ++ [c]) ≠ 0)
    (hs : m'.strategy = { m.strategy with freeHead := L.ptr (q ++ [c]) })
    (hi : image m' = released (image m) (L.ptr q) c (L.ptr (q ++ [c])) (L.free.headD 0)) :
    Represents m' (L.release (q ++ [c])) := by
  apply (h.allocated.release hN hlen hq hs hi).represents
  have hlt : q.length < N := by simp at hlen; omega
  have hp := h.valid.parent hq
  have hrecord := (record_apart h.valid hN hlen hq).1
  have hd := hrecord q (ne_append_singleton q c) hp
  rw [spanOf_node hlt] at hd
  have he : Edit (image m) (image m') (L.ptr q) c 0 (L.ptr (q ++ [c]))
      (L.ptr (q ++ [c]) + L.slot) := hi ▸ edit_released h.valid.slot_ge hd
  have hval : ∀ p, p ≠ q ++ [c] → (L.release (q ++ [c])).val p = L.val p := fun _ _ => rfl
  apply records_edit h.valid hN h.stored.records hp hlt he release_ptr hval
  · intro p hpn hp' hpp
    have := hrecord p hpn hpp
    rwa [spanOf_record hp'] at this
  · exact fun _ h0 => absurd rfl h0

theorem follows_release (h : Represents m L) (hN : 0 < N)
    (hlen : (q ++ [c]).length = N) (hq : L.ptr (q ++ [c]) ≠ 0) {head : ℕ}
    (hi : image m' = released (image m) (L.ptr q) c (L.ptr (q ++ [c])) head) :
    Follows m L m' (L.release (q ++ [c])) := by
  have hlt : q.length < N := by simp at hlen; omega
  have hp := h.valid.parent hq
  have hd := h.valid.apart hN (ne_append_singleton q c) hp hq
  rw [spanOf_node hlt, spanOf_record hlen] at hd
  have hslot := h.valid.slot_ge
  have hlo := h.valid.entry_lower (by simp) hq
  have hhi := h.valid.entry_upper (by simp) hq
  have hbump := h.valid.bump_lt
  rw [spanOf_record hlen] at hhi
  have he : Edit (image m) (image m') (L.ptr q) c 0 (L.ptr (q ++ [c]))
      (L.ptr (q ++ [c]) + L.slot) := hi ▸ edit_released hslot hd
  obtain ⟨hnode, hnode'⟩ := node_bounds h.valid hN hp hlt
  refine ⟨fun hsync => ?_, he.framed_area hnode hnode'.le ((Nat.le_add_right ..).trans hlo)
    (by omega)⟩
  refine synced_edit h.valid hN hsync hp hlt he (fun c' => ?_) rfl ?_ fun _ h0 => absurd rfl h0
  · have hf : Framed (image m) (overlay (image m) (L.ptr (q ++ [c])) (encode 8 head))
        (L.ptr (q ++ [c])) (L.ptr (q ++ [c]) + L.slot) :=
      framed_overlay le_rfl (by simpa using hslot)
    rw [hi, released, occupied_setSlot, hf.occupied hd]
  · intro p hpq _ hpp
    have := h.valid.apart hN hpq hpp hq
    rwa [spanOf_record hlen] at this

end Chton.StoreRepresentations
