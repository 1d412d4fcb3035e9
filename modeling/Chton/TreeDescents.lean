import Chton.StoreRepresentations

/-!
# Descending the tree

`locate` returns the slot the layout resolves a path to and changes nothing.
`locate_or_create` links the nodes that `Layout.descend` links; when an origin call
fails on the way, the nodes made so far stay, the node under construction is linked or
lost, and every record is where it was.
-/

namespace Chton.TreeDescents
open OutcomePrograms ByteRegions LittleEndianWords Origins TreeStrategyProgram
open StoreLayouts StoreLayouts.Layout LayoutImages ImageEdits StrategyCalls StoreRepresentations

variable {N : ℕ} {σ : Type} [ByteOrigin σ]
variable {m m' : Mount N σ} {L L' L'' : Layout} {q pre rest : List Coord} {c : Coord}

theorem Wired.ptr_append_eq_zero {ptr : List Coord → ℕ} (h : Wired N ptr) (hq : ptr q = 0)
    (rest : List Coord) : ptr (q ++ rest) = 0 := by
  induction rest generalizing q with
  | nil => simpa using hq
  | cons c rest ih => simpa using ih (h.below q c hq)

/-- A path of positive length is a node path followed by a leaf index. -/
theorem exists_append_singleton {l : List Coord} (h : 0 < l.length) :
    ∃ q c, l = q ++ [c] :=
  ⟨l.dropLast, l.getLast (List.ne_nil_of_length_pos h), (List.dropLast_append_getLast _).symm⟩

theorem resolve_recordOffset (h : Wired N L.ptr) (hrest : rest ≠ []) :
    (L.resolve pre rest).recordOffset = L.ptr (pre ++ rest) := by
  induction rest generalizing pre with
  | nil => exact absurd rfl hrest
  | cons c rest ih =>
    rw [resolve]
    split
    · simp [‹rest = []›]
    · split
      · have := Wired.ptr_append_eq_zero h ‹_› rest
        simpa using this.symm
      · have hrec : (L.resolve (pre ++ [c]) rest).recordOffset = L.ptr (pre ++ [c] ++ rest) :=
          ih ‹_›
        simpa using hrec

/-- When the leaf node exists, the lookup ends in it. -/
theorem resolve_of_node (h : Wired N L.ptr) (hq : L.ptr (pre ++ q) ≠ 0) :
    L.resolve pre (q ++ [c]) =
      ⟨L.ptr (pre ++ q), c, slotAddr (L.ptr (pre ++ q)) c, L.ptr (pre ++ q ++ [c])⟩ := by
  induction q generalizing pre with
  | nil => simp [resolve]
  | cons d q ih =>
    have hd : L.ptr (pre ++ [d]) ≠ 0 := fun h0 =>
      hq (by simpa using Wired.ptr_append_eq_zero h h0 q)
    have hrest : q ++ [c] ≠ [] := by simp
    rw [List.cons_append, resolve, if_neg hrest, if_neg hd, ih (by simpa using hq)]
    simp

/-- Reading one slot of a linked node. -/
theorem readChild_spec (hv : L.Valid N) (h : TreeImage N (image m) L) (hq : L.ptr q ≠ 0)
    (hlen : q.length < N) :
    Ensures (readSlot (slotAddr (L.ptr q) c)) m
      (fun v m' => v = L.ptr (q ++ [c]) ∧ Same m m') (Faulted m) := by
  rw [← h.slots q c hlen hq]
  refine readSlot_spec m ?_
  by_cases h0 : q = []
  · subst h0
    rw [hv.root]
    exact h.root.2 c
  · have := h.nodes q h0 hlen hq
    have := slotAddr_le (L.ptr q) c
    omega

theorem node_lt (h : L.Valid N) (hN : 0 < N) (hq : L.ptr q ≠ 0) (hlen : q.length < N) :
    L.ptr q + nodeSpan < 2 ^ 64 := by
  have h₁ := h.span_le_bump hN hq
  have h₂ := h.bump_lt
  rw [spanOf_node hlen] at h₁
  omega

theorem locateFrom_spec (pathLen : ℕ) (hv : L.Valid N) (h : TreeImage N (image m) L) (hN : 0 < N) (hpre : L.ptr pre ≠ 0)
    (hlen : pre.length + rest.length = N) (hrest : rest ≠ []) :
    Ensures (locateFrom pathLen (L.ptr pre) rest) m
      (fun s m' => s = L.resolve pre rest ∧ Same m m') (Faulted m) := by
  induction rest generalizing pre m with
  | nil => exact absurd rfl hrest
  | cons c rest ih =>
    have hlt : pre.length < N := by simp at hlen; omega
    rw [locateFrom, resolve]
    apply (slotPos_spec m (node_lt hv hN hpre hlt)).andThen
    rintro _ m ⟨rfl, rfl⟩
    apply (readChild_spec hv h hpre hlt).andThen
    rintro _ m₁ ⟨rfl, hm⟩
    refine ensures_ite (fun hr => ?_) fun hr => ?_
    · rw [if_pos hr, ensures_pure]
      exact ⟨rfl, hm⟩
    rw [if_neg hr]
    refine ensures_ite (fun habs => ?_) fun hlink => ?_
    · rw [if_pos habs, ensures_pure]
      exact ⟨rfl, hm⟩
    rw [if_neg hlink]
    have hlt' : (pre ++ [c]).length < N := by
      have := List.length_pos_of_ne_nil hr
      simp at hlen ⊢
      omega
    have h₁ : TreeImage N (image m₁) L := hm.image ▸ h
    apply (checkChildInBounds_spec m₁ (h₁.nodes _ (by simp) hlt' hlink)
      (node_lt hv hN hlink hlt')).andThen
    rintro _ m₂ rfl
    refine (ih h₁ hlink (by simp at hlen ⊢; omega) hr).mono ?_ fun _ _ hf => hf.trans hm
    rintro s m₃ ⟨hs, hm₃⟩
    exact ⟨hs, hm.trans hm₃⟩

theorem root_ne_zero (h : Wired N L.ptr) : L.ptr [] ≠ 0 := by
  rw [h.root]
  decide

theorem locate_spec (hv : L.Valid N) (h : TreeImage N (image m) L) (hN : 0 < N) (p : CoordPath N) :
    Ensures (locate p) m (fun s m' => s = L.resolve [] p.coords ∧ Same m m') (Faulted m) := by
  have hp := p.length_coords
  have hrest : p.coords ≠ [] := List.ne_nil_of_length_pos (by omega)
  have hspec := locateFrom_spec N hv h hN (root_ne_zero hv.toWired) (by simpa using hp) hrest
  rw [hv.root] at hspec
  exact hspec

/-- The same entries with the same contents; nodes, free records and losses may differ. -/
structure Kept (N : ℕ) (L L' : Layout) : Prop where
  ptr : ∀ q, q.length = N → L'.ptr q = L.ptr q
  val : ∀ q, q.length = N → L.ptr q ≠ 0 → L'.val q = L.val q
  slot : L'.slot = L.slot

theorem Kept.refl (N : ℕ) (L : Layout) : Kept N L L := ⟨fun _ _ => rfl, fun _ _ _ => rfl, rfl⟩

theorem Kept.trans (h : Kept N L L') (h' : Kept N L' L'') : Kept N L L'' :=
  ⟨fun q hq => (h'.ptr q hq).trans (h.ptr q hq),
    fun q hq hp => (h'.val q hq (h.ptr q hq ▸ hp)).trans (h.val q hq hp), h'.slot.trans h.slot⟩

theorem kept_loseNode : Kept N L L.loseNode := ⟨fun _ _ => rfl, fun _ _ _ => rfl, rfl⟩

theorem kept_link (hlen : q.length < N) : Kept N L (L.link q) where
  ptr p hp := by
    rw [link_ptr, Function.update_of_ne]
    rintro rfl
    omega
  val _ _ _ := rfl
  slot := rfl

/-- An origin call failed; the mount still represents a layout with the same entries. -/
def Spared (L : Layout) : Stop BindingError → Mount N σ → Prop :=
  Refused fun _ m' => ByteOrigin.mayFail σ ∧ ∃ L', Represents m' L' ∧ Kept N L L'

/-- A way to read mounts as layouts that holds on while a descent makes nodes. -/
structure Descends (R : Mount N σ → Layout → Prop) : Prop where
  treeAt : ∀ {m L}, R m L → TreeAt m L
  congr : ∀ {m m' L}, R m L → Same m m' → R m' L
  loseNode : ∀ {m m' L}, R m L → 0 < N → L.bump + nodeSpan < 2 ^ 64 →
    m'.strategy = { m.strategy with bump := L.bump + nodeSpan } →
    Framed (image m) (image m') L.bump (L.bump + nodeSpan) → RootEdge (image m').length →
      R m' L.loseNode
  link : ∀ {m m' L q c}, R m L → 0 < N → L.ptr q ≠ 0 → q.length + 1 < N → L.ptr (q ++ [c]) = 0 →
    L.bump + nodeSpan < 2 ^ 64 → m'.strategy = { m.strategy with bump := L.bump + nodeSpan } →
    NodeLinked (image m) (image m') (L.ptr q) c L.bump → R m' (L.link (q ++ [c]))

theorem represents_descends : Descends (Represents (N := N) (σ := σ)) where
  treeAt h := h.treeAt
  congr h hs := h.congr hs
  loseNode h hN hfit hs hf hroot := h.loseNode hN hfit hs hf hroot
  link h hN hq hlen habs hfit hs hb := h.link hN hq hlen habs hfit hs hb

theorem treeAt_descends : Descends (TreeAt (N := N) (σ := σ)) where
  treeAt h := h
  congr h hs := h.congr hs
  loseNode h hN hfit hs hf hroot := h.loseNode hN hfit hs hf hroot
  link h hN hq hlen habs hfit hs hb := h.link hN hq hlen habs hfit hs hb

theorem allocated_descends : Descends (Allocated (N := N) (σ := σ)) where
  treeAt h := h.treeAt
  congr h hs := h.congr hs
  loseNode h hN hfit hs hf hroot := h.loseNode hN hfit hs hf hroot
  link h hN hq hlen habs hfit hs hb := h.link hN hq hlen habs hfit hs hb

def SparedBy (R : Mount N σ → Layout → Prop) (L : Layout) : Stop BindingError → Mount N σ → Prop :=
  Refused fun _ m' => ByteOrigin.mayFail σ ∧ ∃ L', R m' L' ∧ Kept N L L'

variable {R : Mount N σ → Layout → Prop}

theorem spared_of_faulted {e : Stop BindingError} (hR : Descends R) (h : R m L)
    (hf : Faulted m e m') : SparedBy R L e m' :=
  hf.mono fun _ _ hs => ⟨hs.1, L, hR.congr h hs.2, Kept.refl N L⟩

theorem spared_of_kept {e : Stop BindingError} (hk : Kept N L L') (hs : SparedBy R L' e m') :
    SparedBy R L e m' :=
  hs.mono fun _ _ ⟨hf, G, hG, hk'⟩ => ⟨hf, G, hG, hk.trans hk'⟩

/-- What `descend` does to a layout: the leaf node exists afterwards unless the area is full. -/
structure Descended (N : ℕ) (L G : Layout) : Prop where
  valid : G.Valid N
  kept : Kept N L G
  free : G.free = L.free
  lost : G.lost = L.lost
  grows : ∀ p, L.ptr p ≠ 0 → G.ptr p = L.ptr p

theorem descend_spec (h : L.Valid N) (hpre : L.ptr pre ≠ 0) (hlen : pre.length + rest.length = N) :
    Descended N L (L.descend pre rest).1 ∧ ((L.descend pre rest).2 = true →
      (L.descend pre rest).1.ptr (pre ++ rest.dropLast) ≠ 0) := by
  induction rest generalizing pre L with
  | nil => exact ⟨⟨h, Kept.refl N L, rfl, rfl, fun _ _ => rfl⟩, fun _ => by simpa [descend] using hpre⟩
  | cons c rest ih =>
    rw [descend]
    split
    · subst rest
      exact ⟨⟨h, Kept.refl N L, rfl, rfl, fun _ _ => rfl⟩, fun _ => by simpa using hpre⟩
    have hrest := List.length_pos_of_ne_nil ‹rest ≠ []›
    have hlen' : (pre ++ [c]).length + rest.length = N := by simp at hlen ⊢; omega
    have hdrop : pre ++ (c :: rest).dropLast = pre ++ [c] ++ rest.dropLast := by
      rw [List.dropLast_cons_of_ne_nil ‹rest ≠ []›]
      simp
    rw [hdrop]
    split
    · split
      · have habs : L.ptr (pre ++ [c]) = 0 := ‹_›
        have hlt : pre.length + 1 < N := by simp at hlen; omega
        have hv := h.link hpre hlt habs ‹_›
        have hbump : L.bump ≠ 0 := by
          have := h.bump_ge
          rw [rootEnd_eq] at this
          omega
        obtain ⟨hd, hf⟩ := ih hv (by simpa using hbump) hlen'
        refine ⟨⟨hd.valid, (kept_link (by simpa using hlt)).trans hd.kept, hd.free, hd.lost, ?_⟩, hf⟩
        intro p hp
        have hne : p ≠ pre ++ [c] := by
          rintro rfl
          exact hp habs
        have hp' : (L.link (pre ++ [c])).ptr p = L.ptr p := by
          rw [link_ptr, Function.update_of_ne hne]
        rw [hd.grows p (hp' ▸ hp), hp']
      · exact ⟨⟨h, Kept.refl N L, rfl, rfl, fun _ _ => rfl⟩, fun hf => absurd hf (by simp)⟩
    · exact ih h ‹_› hlen'

theorem descend_path (h : L.Valid N) (p : CoordPath N) :
    Descended N L (L.descend [] p.coords).1 ∧ ((L.descend [] p.coords).2 = true →
      (L.descend [] p.coords).1.ptr ([] ++ p.coords.dropLast) ≠ 0) :=
  descend_spec h (root_ne_zero h.toWired) (by simpa using p.length_coords)

theorem allocNode_spec (h : TreeAt m L) (hfit : L.bump + nodeSpan < 2 ^ 64) :
    Ensures allocNode m
      (fun node m' => node = L.bump ∧
        m'.strategy = { m.strategy with bump := L.bump + nodeSpan } ∧
        image m' = overlay (image m) L.bump (List.replicate nodeSpan 0))
      (Refused fun _ m' => ByteOrigin.mayFail σ ∧
        m'.strategy = { m.strategy with bump := L.bump + nodeSpan } ∧ image m' = image m) := by
  rw [allocNode, ensures_bind, ensures_get, h.nodeSize]
  apply (checkedBump_ok m (by rwa [h.bump])).andThen
  rintro _ m₁ ⟨rfl, rfl⟩
  rw [h.bump]
  have hpos : 0 < (List.replicate nodeSpan (0 : UInt8)).length := by
    rw [List.length_replicate]
    decide
  refine (writeOrigin_spec _ (List.ne_nil_of_length_pos hpos)
    (by rwa [List.length_replicate])).bind ?_ fun _ _ hf => ?_
  · rintro _ m₂ ⟨hs, hi⟩
    exact ensures_pure.mpr ⟨rfl, hs, hi⟩
  · exact hf.mono fun _ _ hf => ⟨hf.1, hf.2.strategy, hf.2.image⟩

theorem allocNode_full (h : TreeAt m L) (hfull : ¬L.bump + nodeSpan < 2 ^ 64)
    {Q : ℕ → Mount N σ → Prop} :
    Ensures allocNode m Q (fun e m' => e = L.areaFull ∧ m' = m) := by
  rw [allocNode, ensures_bind, ensures_get, h.nodeSize, areaFull, ← h.bump]
  refine (checkedBump_full m (by rwa [h.bump])).bind (Q := fun _ _ => False) ?_
    fun _ _ h => h
  exact fun _ _ hf => hf.elim

/-- Link the node that was just allocated. -/
theorem writeChild_spec (hR : Descends R) (h : R m L) (hN : 0 < N) (hq : L.ptr q ≠ 0)
    (hlen : q.length + 1 < N) (habs : L.ptr (q ++ [c]) = 0) (hfit : L.bump + nodeSpan < 2 ^ 64)
    (hs : m'.strategy = { m.strategy with bump := L.bump + nodeSpan })
    (hi : image m' = overlay (image m) L.bump (List.replicate nodeSpan 0)) :
    Ensures (writeSlot (L.ptr q) c L.bump) m'
      (fun _ m₁ => R m₁ (L.link (q ++ [c])) ∧ Follows m L m₁ (L.link (q ++ [c])))
      (SparedBy R L) := by
  have hvalid := (hR.treeAt h).valid
  have hd : L.ptr q + nodeSpan ≤ L.bump ∨ L.bump + nodeSpan ≤ L.ptr q := by
    have := hvalid.span_le_bump hN hq
    rw [spanOf_node (by omega)] at this
    exact .inl this
  have hbump := hvalid.bump_lt
  have hge := slotAddr_ge (L.ptr q) c
  have hle := slotAddr_le (L.ptr q) c
  have hbit := bitAddr_lt (L.ptr q) c
  have hspan : nodeSpan = 90773 := rfl
  have hframe : Framed (image m) (image m') L.bump (L.bump + nodeSpan) :=
    hi ▸ framed_overlay le_rfl (by simp)
  have hzero : ∀ i, L.bump ≤ i → i < L.bump + nodeSpan → peek (image m') i = 0 := by
    intro i h₁ h₂
    rw [hi, peek_overlay, if_pos ⟨h₁, by rwa [List.length_replicate]⟩, peek,
      List.getD_eq_getElem?_getD, List.getElem?_replicate]
    split <;> rfl
  have hroom : L.bump + nodeSpan ≤ (image m').length := by
    rw [hi, length_overlay, List.length_replicate]
    exact le_max_right ..
  refine (writeSlot_spec m' (node_lt hvalid hN hq (by omega))).mono ?_ fun e m₁ hf => ?_
  · rintro _ m₁ ⟨hs₁, hi₁⟩
    have hlinked : NodeLinked (image m) (image m₁) (L.ptr q) c L.bump := by
      rw [hi₁]
      refine ⟨hframe.edit_slot hd hbump, fun i h₁ h₂ => ?_, ?_⟩
      · rw [peek_setSlot_outside (by omega), hzero i h₁ h₂]
      · rw [length_setSlot]
        omega
    refine ⟨hR.link h hN hq hlen habs hfit (hs₁.trans hs) hlinked,
      follows_link hvalid hN hq hlen habs hfit hlinked fun c' => ?_⟩
    rw [hi₁, occupied_setSlot, hframe.occupied hd]
  · refine hf.mono fun _ _ he => ⟨he.1, ?_⟩
    obtain ⟨-, hs₁, hi₁ | hi₁⟩ := he
    · refine ⟨L.loseNode, hR.loseNode h hN hfit (hs₁.trans hs) (hi₁ ▸ hframe) ?_, kept_loseNode⟩
      have := hvalid.bump_ge
      exact rootEdge_of_le (by rw [hi₁]; omega)
    · refine ⟨L.link (q ++ [c]), hR.link h hN hq hlen habs hfit (hs₁.trans hs) ?_,
        kept_link (by simpa using hlen)⟩
      rw [hi₁]
      refine ⟨hframe.edit_word hd hbump, fun i h₁ h₂ => ?_, ?_⟩
      · rw [peek_overlay_of_not (by rw [length_encode]; omega), hzero i h₁ h₂]
      · rw [length_overlay, length_encode]
        omega

/-- The outcome of a descent from `L` that should reach the layout `G`. -/
def Reached (L G : Layout) (full : Bool) (m : Mount N σ) : Stop BindingError → Mount N σ → Prop :=
  fun e m' => (full = true ∧ e = G.areaFull ∧ Represents m' G ∧ Follows m L m' G) ∨
    Spared L e m'

def ReachedBy (R : Mount N σ → Layout → Prop) (L G : Layout) (full : Bool) (m : Mount N σ) :
    Stop BindingError → Mount N σ → Prop :=
  fun e m' => (full = true ∧ e = G.areaFull ∧ R m' G ∧ Follows m L m' G) ∨ SparedBy R L e m'

theorem locateOrCreateFrom_spec (pathLen : ℕ) (hR : Descends R) (h : R m L) (hN : 0 < N) (hpre : L.ptr pre ≠ 0)
    (hlen : pre.length + rest.length = N) (hrest : rest ≠ []) :
    Ensures (locateOrCreateFrom pathLen (L.ptr pre) rest) m
      (fun s m' => (L.descend pre rest).2 = true ∧
        s = (L.descend pre rest).1.resolve pre rest ∧ R m' (L.descend pre rest).1 ∧
        Follows m L m' (L.descend pre rest).1)
      (ReachedBy R L (L.descend pre rest).1 (!(L.descend pre rest).2) m) := by
  induction rest generalizing pre m L with
  | nil => exact absurd rfl hrest
  | cons c rest ih =>
    have hlt : pre.length < N := by simp at hlen; omega
    have htree := hR.treeAt h
    rw [locateOrCreateFrom, descend]
    apply (slotPos_spec m (node_lt htree.valid hN hpre hlt)).andThen
    rintro _ m ⟨rfl, rfl⟩
    refine (readChild_spec htree.valid htree.tree hpre hlt).bind ?_ fun _ _ hf => .inr (spared_of_faulted hR h hf)
    rintro _ m₁ ⟨rfl, hm⟩
    have h₁ := hR.congr h hm
    have htree₁ := hR.treeAt h₁
    refine ensures_ite (fun hr => ?_) fun hr => ?_
    · rw [if_pos hr, ensures_pure]
      exact ⟨rfl, by rw [resolve, if_pos hr], h₁, follows_of_same hm L⟩
    rw [if_neg hr]
    have hpos := List.length_pos_of_ne_nil hr
    have hlt' : pre.length + 1 < N := by simp at hlen; omega
    have hlen' : (pre ++ [c]).length + rest.length = N := by simp at hlen ⊢; omega
    refine ensures_ite (fun habs => ?_) fun hlink => ?_
    · rw [if_pos habs]
      by_cases hfit : L.bump + nodeSpan < 2 ^ 64
      · rw [if_pos hfit]
        refine (allocNode_spec htree₁ hfit).bind ?_ fun _ _ hf => .inr ?_
        · rintro _ m₂ ⟨rfl, hs₂, hi₂⟩
          refine (writeChild_spec hR h₁ hN hpre hlt' habs hfit hs₂ hi₂).bind ?_ fun _ _ hf => .inr hf
          rintro _ m₃ ⟨h₃, hf₃⟩
          have hptr : (L.link (pre ++ [c])).ptr (pre ++ [c]) = L.bump := by simp
          have hbump : L.bump ≠ 0 := by
            have := htree.valid.bump_ge
            rw [rootEnd_eq] at this
            omega
          have hrec := ih h₃ (by rwa [hptr]) hlen' hr
          rw [hptr] at hrec
          refine hrec.mono ?_ fun e m₄ he => ?_
          · rintro s m₄ ⟨hf, rfl, h₄, hf₄⟩
            refine ⟨hf, ?_, h₄, (follows_of_same hm L).trans (hf₃.trans hf₄)⟩
            have hd := (descend_spec (hR.treeAt h₃).valid (by rwa [hptr]) hlen').1
            rw [resolve, if_neg hr, if_neg]
            rw [hd.grows _ (by rwa [hptr]), hptr]
            exact hbump
          · rcases he with ⟨hfull, he, h₄, hf₄⟩ | he
            · exact .inl ⟨hfull, he, h₄, (follows_of_same hm L).trans (hf₃.trans hf₄)⟩
            · exact .inr (spared_of_kept (kept_link (by simpa using hlt')) he)
        · refine hf.mono fun _ _ ⟨hfail, hs, hi⟩ => ⟨hfail, L.loseNode, ?_, kept_loseNode⟩
          exact hR.loseNode h₁ hN hfit hs (hi ▸ Framed.refl ..) (hi ▸ htree₁.tree.root)
      · rw [if_neg hfit]
        refine (allocNode_full htree₁ hfit (Q := fun _ _ => False)).bind (fun _ _ hf => hf.elim) ?_
        rintro e m₂ ⟨he, rfl⟩
        exact .inl ⟨rfl, he, h₁, follows_of_same hm L⟩
    · rw [if_neg hlink]
      apply (checkChildInBounds_spec m₁ (htree₁.tree.nodes _ (by simp) (by simpa using hlt') hlink)
        (node_lt htree.valid hN hlink (by simpa using hlt'))).andThen
      rintro _ m₂ rfl
      refine (ih h₁ hlink hlen' hr).mono ?_ fun e m₃ he => ?_
      · rintro s m₃ ⟨hf, rfl, h₃, hf₃⟩
        refine ⟨hf, ?_, h₃, (follows_of_same hm L).trans hf₃⟩
        have hd := (descend_spec htree.valid hlink hlen').1
        rw [resolve, if_neg hr, if_neg]
        rw [hd.grows _ hlink]
        exact hlink
      · rcases he with ⟨hfull, he, h₃, hf₃⟩ | he
        · exact .inl ⟨hfull, he, h₃, (follows_of_same hm L).trans hf₃⟩
        · exact .inr he

/-- With the leaf node in place a descent that may create nodes only reads. -/
theorem locateOrCreateFrom_of_node (pathLen : ℕ) (hv : L.Valid N) (h : TreeImage N (image m) L)
    (hN : 0 < N) (hpre : L.ptr pre ≠ 0) (hlen : pre.length + rest.length = N) (hrest : rest ≠ [])
    (hnode : L.ptr (pre ++ rest.dropLast) ≠ 0) :
    Ensures (locateOrCreateFrom pathLen (L.ptr pre) rest) m
      (fun s m' => s = L.resolve pre rest ∧ Same m m') (Faulted m) := by
  induction rest generalizing pre m with
  | nil => exact absurd rfl hrest
  | cons c rest ih =>
    have hlt : pre.length < N := by simp at hlen; omega
    rw [locateOrCreateFrom, resolve]
    apply (slotPos_spec m (node_lt hv hN hpre hlt)).andThen
    rintro _ m ⟨rfl, rfl⟩
    apply (readChild_spec hv h hpre hlt).andThen
    rintro _ m₁ ⟨rfl, hm⟩
    refine ensures_ite (fun hr => ?_) fun hr => ?_
    · rw [if_pos hr, ensures_pure]
      exact ⟨rfl, hm⟩
    have hpos := List.length_pos_of_ne_nil hr
    have hlt' : pre.length + 1 < N := by simp at hlen; omega
    have hlen' : (pre ++ [c]).length + rest.length = N := by simp at hlen ⊢; omega
    have hnode' : L.ptr (pre ++ [c] ++ rest.dropLast) ≠ 0 := by
      rw [List.dropLast_cons_of_ne_nil hr] at hnode
      simpa using hnode
    have hc : L.ptr (pre ++ [c]) ≠ 0 := fun h0 =>
      hnode' (Wired.ptr_append_eq_zero hv.toWired h0 _)
    have h₁ : TreeImage N (image m₁) L := hm.image.symm ▸ h
    rw [if_neg hr, if_neg hc, if_neg hc]
    apply (checkChildInBounds_spec m₁ (h₁.nodes _ (by simp) (by simpa using hlt') hc)
      (node_lt hv hN hc (by simpa using hlt'))).andThen
    rintro _ m₂ rfl
    exact (ih h₁ hc hlen' hr hnode').mono (fun _ _ hs => ⟨hs.1, hm.trans hs.2⟩)
      fun _ _ hf => hf.trans hm

theorem locateOrCreate_of_node (hv : L.Valid N) (h : TreeImage N (image m) L) (hN : 0 < N)
    (p : CoordPath N) (hnode : L.ptr p.coords.dropLast ≠ 0) :
    Ensures (locateOrCreate p) m (fun s m' => s = L.resolve [] p.coords ∧ Same m m')
      (Faulted m) := by
  have hp := p.length_coords
  have hrest : p.coords ≠ [] := List.ne_nil_of_length_pos (by omega)
  have hspec := locateOrCreateFrom_of_node N hv h hN (root_ne_zero hv.toWired) (by simpa using hp)
    hrest (by simpa using hnode)
  rw [hv.root] at hspec
  exact hspec

theorem locateOrCreate_descends (hR : Descends R) (h : R m L) (hN : 0 < N) (p : CoordPath N) :
    Ensures (locateOrCreate p) m
      (fun s m' => (L.descend [] p.coords).2 = true ∧
        s = (L.descend [] p.coords).1.resolve [] p.coords ∧ R m' (L.descend [] p.coords).1 ∧
        Follows m L m' (L.descend [] p.coords).1)
      (ReachedBy R L (L.descend [] p.coords).1 (!(L.descend [] p.coords).2) m) := by
  have hp := p.length_coords
  have hvalid := (hR.treeAt h).valid
  have hrest : p.coords ≠ [] := List.ne_nil_of_length_pos (by omega)
  have hspec := locateOrCreateFrom_spec N hR h hN (root_ne_zero hvalid.toWired)
    (by simpa using hp) hrest
  rw [hvalid.root] at hspec
  exact hspec

theorem locateOrCreate_spec (h : Represents m L) (hN : 0 < N) (p : CoordPath N) :
    Ensures (locateOrCreate p) m
      (fun s m' => (L.descend [] p.coords).2 = true ∧
        s = (L.descend [] p.coords).1.resolve [] p.coords ∧
        Represents m' (L.descend [] p.coords).1 ∧
        Follows m L m' (L.descend [] p.coords).1)
      (Reached L (L.descend [] p.coords).1 (!(L.descend [] p.coords).2) m) :=
  locateOrCreate_descends represents_descends h hN p

end Chton.TreeDescents
