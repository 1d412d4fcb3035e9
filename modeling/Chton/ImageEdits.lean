import Chton.LayoutImages

/-!
# Changes of the bytes as changes of the layout

The writes of one operation touch the slots of one node and one span of the allocated
area. `image_edit` and `synced_edit` turn such a change of bytes into a change of the
layout; that nothing else is read from the changed bytes is the tiling's disjointness.
-/

namespace Chton.ImageEdits
open ByteRegions LittleEndianWords Origins TreeStrategyProgram CoordMapProgram
open StoreLayouts StoreLayouts.Layout LayoutImages

variable {N : ℕ} {b b₁ b' d v : Bytes} {L L' : Layout} {q : List Coord} {c c' : Coord}
variable {n a r lo hi off i : ℕ}

/-- Only bytes in `[lo, hi)` differ, and the region did not shrink. -/
structure Framed (b b' : Bytes) (lo hi : ℕ) : Prop where
  length_le : b.length ≤ b'.length
  same : ∀ i, i < lo ∨ hi ≤ i → peek b' i = peek b i

theorem Framed.refl (b : Bytes) (lo hi : ℕ) : Framed b b lo hi := ⟨le_rfl, fun _ _ => rfl⟩

theorem Framed.trans (h : Framed b b₁ lo hi) (h' : Framed b₁ b' lo hi) : Framed b b' lo hi :=
  ⟨h.length_le.trans h'.length_le, fun i hi => (h'.same i hi).trans (h.same i hi)⟩

theorem framed_overlay (h₁ : lo ≤ off) (h₂ : off + d.length ≤ hi) :
    Framed b (overlay b off d) lo hi where
  length_le := by rw [length_overlay]; omega
  same i hi := peek_overlay_of_not (by omega)

theorem framed_setRecord (h₁ : lo ≤ r) (h₂ : r + 8 + v.length ≤ hi) :
    Framed b (setRecord b r v) lo hi where
  length_le := by rw [length_setRecord]; omega
  same i hi := peek_setRecord_outside (by omega)

/-- Only slot `c` of the node at `n` and the span `[lo, hi)` differ; the slot holds `a`. -/
structure Edit (b b' : Bytes) (n : ℕ) (c : Coord) (a lo hi : ℕ) : Prop where
  length_le : b.length ≤ b'.length
  outside : ∀ i, (i < n ∨ n + nodeSpan ≤ i) → (i < lo ∨ hi ≤ i) → peek b' i = peek b i
  slots : ∀ c', wordAt b' (slotAddr n c') = if c' = c then a else wordAt b (slotAddr n c')

theorem Edit.outside_span (h : Edit b b' n c a lo hi) {s k : ℕ} (h₁ : s + k ≤ n ∨ n + nodeSpan ≤ s)
    (h₂ : s + k ≤ lo ∨ hi ≤ s) (hi₁ : s ≤ i) (hi₂ : i < s + k) : peek b' i = peek b i :=
  h.outside i (by omega) (by omega)

/-- A slot word is written and a span away from the node changes. -/
theorem Framed.edit_word (h : Framed b b₁ lo hi) (hd : n + nodeSpan ≤ lo ∨ hi ≤ n)
    (ha : a < 2 ^ 64) : Edit b (overlay b₁ (slotAddr n c) (encode 8 a)) n c a lo hi := by
  have hge := slotAddr_ge n c
  have hle := slotAddr_le n c
  refine ⟨?_, fun i h₁ h₂ => ?_, fun c' => ?_⟩
  · rw [length_overlay]
    exact h.length_le.trans (le_max_left ..)
  · rw [peek_overlay_of_not (by rw [length_encode]; omega), h.same i h₂]
  · have hge' := slotAddr_ge n c'
    have hle' := slotAddr_le n c'
    by_cases hc : c' = c
    · rw [hc, if_pos rfl, wordAt_overlay ha]
    · have := slotAddr_apart n hc
      rw [if_neg hc]
      refine wordAt_congr fun i h₁ h₂ => ?_
      rw [peek_overlay_of_not (by rw [length_encode]; omega), h.same i (by omega)]

theorem Framed.edit_slot (h : Framed b b₁ lo hi) (hd : n + nodeSpan ≤ lo ∨ hi ≤ n)
    (ha : a < 2 ^ 64) : Edit b (setSlot b₁ n c a) n c a lo hi := by
  refine ⟨?_, fun i h₁ h₂ => ?_, fun c' => ?_⟩
  · rw [length_setSlot]
    exact h.length_le.trans (le_max_left ..)
  · rw [peek_setSlot_outside h₁, h.same i h₂]
  · have hge' := slotAddr_ge n c'
    have hle' := slotAddr_le n c'
    rw [wordAt_setSlot ha]
    refine if_congr Iff.rfl rfl (wordAt_congr fun i h₁ h₂ => h.same i (by omega))

/-- A span away from the node changes after its slot was written. -/
theorem Edit.framed (h : Edit b b₁ n c a lo hi) (hf : Framed b₁ b' lo hi)
    (hd : n + nodeSpan ≤ lo ∨ hi ≤ n) : Edit b b' n c a lo hi := by
  refine ⟨h.length_le.trans hf.length_le, fun i h₁ h₂ => (hf.same i h₂).trans (h.outside i h₁ h₂),
    fun c' => ?_⟩
  have hge' := slotAddr_ge n c'
  have hle' := slotAddr_le n c'
  rw [← h.slots c']
  exact wordAt_congr fun i h₁ h₂ => hf.same i (by omega)

/-- An edit of the allocated area leaves the bytes before the root alone. -/
theorem Edit.framed_area (h : Edit b b' n c a lo hi) (hn : rootOffset ≤ n)
    (hn' : n + nodeSpan ≤ 2 ^ 64) (hlo : rootOffset ≤ lo) (hhi : hi ≤ 2 ^ 64) :
    Framed b b' rootOffset (2 ^ 64) :=
  ⟨h.length_le, fun i hi => h.outside i (by omega) (by omega)⟩

theorem Framed.occupied (h : Framed b b₁ lo hi) (hd : n + nodeSpan ≤ lo ∨ hi ≤ n) (c : Coord) :
    Occupied b₁ n c ↔ Occupied b n c := by
  have hge := bitAddr_ge n c
  have hlt := bitAddr_lt n c
  have : nodeSpan = 90773 := rfl
  rw [Occupied, Occupied, h.same _ (by omega)]

/-- Writing a slot of the root or of a node the region holds in full leaves no cut slot. -/
theorem rootEdge_slotWrite {len : ℕ} (h : RootEdge len)
    (hn : n = rootOffset ∨ n + nodeSpan ≤ len) (c : Coord) :
    RootEdge (max len (slotAddr n c + 8)) := by
  rcases hn with rfl | hn
  · exact h.max (rootEdge_slot c)
  · have hle := slotAddr_le n c
    rwa [Nat.max_eq_left (by omega)]

/-- The tree after the pointer at `q ++ [c]` became `a` in the bytes. -/
theorem treeImage_edit (hv : L.Valid N) (hN : 0 < N) (h : TreeImage N b L) (hq : L.ptr q ≠ 0)
    (hlen : q.length < N) (he : Edit b b' (L.ptr q) c a lo hi) (hroot : RootEdge b'.length)
    (hptr : L'.ptr = Function.update L.ptr (q ++ [c]) a)
    (hapart : ∀ p, p ≠ q ++ [c] → p ≠ q → p.length < N → L.ptr p ≠ 0 →
      L.ptr p + nodeSpan ≤ lo ∨ hi ≤ L.ptr p)
    (hnode : q.length + 1 < N → a ≠ 0 → a + nodeSpan ≤ b'.length ∧
      ∀ c', wordAt b' (slotAddr a c') = L'.ptr (q ++ [c] ++ [c'])) :
    TreeImage N b' L' where
  slots p c' hp hpp := by
    rw [hptr] at hpp ⊢
    by_cases hpq : p = q
    · subst hpq
      rw [Function.update_of_ne (ne_append_singleton p c), he.slots c']
      by_cases hc : c' = c
      · rw [if_pos hc, hc, Function.update_self]
      · rw [if_neg hc, Function.update_of_ne (by simpa [append_singleton_inj] using hc)]
        exact h.slots p c' hp hq
    · have hpc : p ++ [c'] ≠ q ++ [c] := fun h' => hpq (append_singleton_inj.mp h').1
      by_cases hpn : p = q ++ [c]
      · subst hpn
        rw [Function.update_self] at hpp ⊢
        rw [← hptr]
        exact (hnode (by simpa using hp) hpp).2 c'
      · rw [Function.update_of_ne hpn] at hpp ⊢
        rw [Function.update_of_ne hpc, ← h.slots p c' hp hpp]
        have h₁ := hv.apart hN hpq hpp hq
        have h₂ := hapart p hpn hpq hp hpp
        rw [spanOf_node hp, spanOf_node hlen] at h₁
        have hge := slotAddr_ge (L.ptr p) c'
        have hle := slotAddr_le (L.ptr p) c'
        exact wordAt_congr fun i _ _ => he.outside_span h₁ h₂ (by omega) (by omega)
  nodes p hp0 hp hpp := by
    rw [hptr] at hpp ⊢
    by_cases hpn : p = q ++ [c]
    · subst hpn
      rw [Function.update_self] at hpp ⊢
      exact (hnode (by simpa using hp) hpp).1
    · rw [Function.update_of_ne hpn] at hpp ⊢
      exact (h.nodes p hp0 hp hpp).trans he.length_le
  root := hroot

/-- The payloads after the same change. -/
theorem records_edit (hv : L.Valid N) (hN : 0 < N) (h : Payloads N b L) (hq : L.ptr q ≠ 0)
    (hlen : q.length < N) (he : Edit b b' (L.ptr q) c a lo hi)
    (hptr : L'.ptr = Function.update L.ptr (q ++ [c]) a)
    (hval : ∀ p, p ≠ q ++ [c] → L'.val p = L.val p)
    (hapart : ∀ p, p ≠ q ++ [c] → p.length = N → L.ptr p ≠ 0 →
      L.ptr p + L.slot ≤ lo ∨ hi ≤ L.ptr p)
    (hrec : q.length + 1 = N → a ≠ 0 → RecordAt b' a (L'.val (q ++ [c]))) : Payloads N b' L' := by
  intro p hp hpp
  rw [hptr] at hpp ⊢
  by_cases hpn : p = q ++ [c]
  · subst hpn
    rw [Function.update_self] at hpp ⊢
    exact hrec (by simpa using hp) hpp
  · rw [Function.update_of_ne hpn] at hpp ⊢
    rw [hval p hpn]
    have hpq : p ≠ q := by
      rintro rfl
      omega
    have h₁ := hv.apart hN hpq hpp hq
    rw [spanOf_record hp, spanOf_node hlen] at h₁
    have h₂ := hapart p hpn hp hpp
    have hfit := hv.fits p hp hpp
    exact (h p hp hpp).congr he.length_le fun i _ _ =>
      he.outside_span h₁ h₂ (by omega) (by omega)

theorem chain_edit {l : List ℕ} (h : FreeChain b l) (he : Edit b b' n c a lo hi)
    (hnode : ∀ a ∈ l, a + 8 ≤ n ∨ n + nodeSpan ≤ a) (hspan : ∀ a ∈ l, a + 8 ≤ lo ∨ hi ≤ a) :
    FreeChain b' l :=
  h.congr he.length_le fun a ha _ h₁ h₂ => he.outside_span (hnode a ha) (hspan a ha) h₁ h₂

/-- The bitmaps after the same change, when the bit of slot `c` followed it. -/
theorem synced_edit (hv : L.Valid N) (hN : 0 < N) (h : Synced N b L) (hq : L.ptr q ≠ 0)
    (hlen : q.length < N) (he : Edit b b' (L.ptr q) c a lo hi)
    (hbits : ∀ c', Occupied b' (L.ptr q) c' ↔ if c' = c then a ≠ 0 else Occupied b (L.ptr q) c')
    (hptr : L'.ptr = Function.update L.ptr (q ++ [c]) a)
    (hapart : ∀ p, p ≠ q ++ [c] → p ≠ q → L.ptr p ≠ 0 →
      L.ptr p + L.spanOf N p ≤ lo ∨ hi ≤ L.ptr p)
    (hnode : q.length + 1 < N → a ≠ 0 →
      ∀ c', ¬Occupied b' a c' ∧ L'.ptr (q ++ [c] ++ [c']) = 0) :
    Synced N b' L' := by
  intro p c' hp hpp
  rw [hptr] at hpp ⊢
  by_cases hpq : p = q
  · subst hpq
    rw [Function.update_of_ne (ne_append_singleton p c), hbits c']
    by_cases hc : c' = c
    · rw [if_pos hc, hc, Function.update_self]
    · rw [if_neg hc, Function.update_of_ne (by simpa [append_singleton_inj] using hc)]
      exact h p c' hp hq
  · have hpc : p ++ [c'] ≠ q ++ [c] := fun h' => hpq (append_singleton_inj.mp h').1
    by_cases hpn : p = q ++ [c]
    · subst hpn
      rw [Function.update_self] at hpp ⊢
      obtain ⟨h₁, h₂⟩ := hnode (by simpa using hp) hpp c'
      rw [← hptr, h₂]
      simpa using h₁
    · rw [Function.update_of_ne hpn] at hpp ⊢
      rw [Function.update_of_ne hpc, ← h p c' hp hpp]
      have h₁ := hv.apart hN hpq hpp hq
      have h₂ := hapart p hpn hpq hpp
      rw [spanOf_node hp] at h₁ h₂
      rw [spanOf_node hlen] at h₁
      have hge := bitAddr_ge (L.ptr p) c'
      have hlt := bitAddr_lt (L.ptr p) c'
      have : nodeSpan = 90773 := rfl
      rw [Occupied, Occupied, he.outside_span h₁ h₂ (i := bitAddr (L.ptr p) c') hge (by omega)]

/-- Bytes outside every node of the layout may change. -/
theorem treeImage_outside (h : TreeImage N b L) (hf : Framed b b' lo hi) (hroot : RootEdge b'.length)
    (hapart : ∀ p, p.length < N → L.ptr p ≠ 0 → L.ptr p + nodeSpan ≤ lo ∨ hi ≤ L.ptr p) :
    TreeImage N b' L where
  slots p c' hp hpp := by
    have h₂ := hapart p hp hpp
    have hge := slotAddr_ge (L.ptr p) c'
    have hle := slotAddr_le (L.ptr p) c'
    rw [← h.slots p c' hp hpp]
    exact wordAt_congr fun i _ _ => hf.same i (by omega)
  nodes p hp0 hp hpp := (h.nodes p hp0 hp hpp).trans hf.length_le
  root := hroot

theorem chain_outside {l : List ℕ} (h : FreeChain b l) (hf : Framed b b' lo hi)
    (hapart : ∀ a ∈ l, a + 8 ≤ lo ∨ hi ≤ a) : FreeChain b' l :=
  h.congr hf.length_le fun a ha _ _ _ => hf.same _ (by have := hapart a ha; omega)

theorem records_outside (hv : L.Valid N) (h : Payloads N b L) (hf : Framed b b' lo hi)
    (hapart : ∀ p, p.length = N → L.ptr p ≠ 0 → L.ptr p + L.slot ≤ lo ∨ hi ≤ L.ptr p) :
    Payloads N b' L := by
  intro p hp hpp
  have h₂ := hapart p hp hpp
  have := hv.fits p hp hpp
  exact (h p hp hpp).congr hf.length_le fun i _ _ => hf.same i (by omega)

theorem image_outside (hv : L.Valid N) (h : Image N b L) (hf : Framed b b' lo hi)
    (hroot : RootEdge b'.length)
    (hapart : ∀ p, L.ptr p ≠ 0 → L.ptr p + L.spanOf N p ≤ lo ∨ hi ≤ L.ptr p)
    (hfree : ∀ a ∈ L.free, a + 8 ≤ lo ∨ hi ≤ a) : Image N b' L := by
  apply TreeImage.image _ (chain_outside h.chain hf hfree)
  · apply records_outside hv h.records hf
    intro p hp hpp
    have := hapart p hpp
    rwa [spanOf_record hp] at this
  · apply treeImage_outside h.tree hf hroot
    intro p hp hpp
    have := hapart p hpp
    rwa [spanOf_node hp] at this

theorem synced_outside (h : Synced N b L) (hf : Framed b b' lo hi)
    (hapart : ∀ p, L.ptr p ≠ 0 → L.ptr p + L.spanOf N p ≤ lo ∨ hi ≤ L.ptr p) :
    Synced N b' L := by
  intro p c' hp hpp
  have h₂ := hapart p hpp
  rw [spanOf_node hp] at h₂
  rw [← h p c' hp hpp]
  exact hf.occupied h₂ c'

end Chton.ImageEdits
