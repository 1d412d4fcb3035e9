import Chton.MapCalls

/-!
# Removal, clearing, flushing and loading

The remaining calls of the map. `clear_checked` and `flush` end with the header of the
live fields on the origin, which is what `load` needs to find the same layout again.
-/

namespace Chton.MapUpdates
open OutcomePrograms ByteRegions LittleEndianWords Origins TreeStrategyProgram CoordMapProgram
open StoreLayouts StoreLayouts.Layout LayoutImages ImageEdits StrategyCalls StoreRepresentations
open TreeDescents RecordCalls HeaderCalls MapCalls

variable {N : ℕ} {σ : Type} [ByteOrigin σ]
variable {st st' : CoordMapStore 64 N σ} {L : Layout} {p : CoordPath N} {q : List Coord} {c : Coord}

/-- `remove_path` up to and including its write into the record that it frees. -/
def removeStage (path : CoordPath N) : MapProgram 64 N σ (Option (Slot × Bytes)) := do
  let slot ← onStrategy (locate path)
  if slot.recordOffset = 0 then pure none else
  let prev ← readRecord slot.recordOffset
  onStrategy (do
    let m ← get
    writeU64 slot.recordOffset m.strategy.freeHead)
  pure (some (slot, prev))

def removeFinish : Option (Slot × Bytes) → MapProgram 64 N σ (Option Bytes)
  | none => pure none
  | some (slot, prev) => do
    onStrategy (modify fun m => { m with
      strategy := { m.strategy with freeHead := slot.recordOffset } })
    onStrategy (writeLeaf slot 0)
    modify fun st => { st with len := st.len - 1, dirty := true }
    pure (some prev)

theorem removePath_split (path : CoordPath N) :
    (removePath path : MapProgram 64 N σ (Option Bytes)) = removeStage path >>= removeFinish := by
  simp only [removePath, removeStage, removeFinish, freeRecord, onStrategy_bind, bind_assoc,
    ite_bind, pure_bind]

/-- The state after the record of a path was overwritten with the free head. -/
structure Freeing (L : Layout) (p : CoordPath N) (q : List Coord) (c : Coord)
    (st st' : CoordMapStore 64 N σ) (slot : Slot) (prev : Bytes) : Prop where
  linked : L.ptr p.coords ≠ 0
  leafNode : slot.leafNode = L.ptr q
  leafIndex : slot.leafIndex = c
  recordOffset : slot.recordOffset = L.ptr p.coords
  value : prev = L.val p.coords
  written : Written st st' (overlay (image st.mount) (L.ptr p.coords) (encode 8 (L.free.headD 0)))

theorem removeStage_spec (h : Represents st.mount L) (hN : 0 < N) (hq : p.coords = q ++ [c]) :
    Ensures (removeStage p) st
      (fun s st' => (s = none ∧ L.ptr p.coords = 0 ∧ SameStore st st') ∨
        ∃ slot prev, s = some (slot, prev) ∧ Freeing L p q c st st' slot prev)
      (FaultedStore st) := by
  have hplen := p.length_coords
  rw [removeStage]
  apply (locateEntry_spec h.readable hN p).andThen
  rintro slot st₁ ⟨hslot, hst₁⟩
  have hoff : slot.recordOffset = L.ptr p.coords := by rw [hslot, recordOffset_resolve h.valid hN]
  rw [hoff]
  refine ensures_ite (fun h0 => ensures_pure.mpr (.inl ⟨rfl, h0, hst₁⟩)) fun hp => ?_
  have h₁ := h.congr hst₁.mount
  refine (readEntry_spec h₁.readable hN hp).bind ?_ fun _ _ hf => hf.trans hst₁
  rintro prev st₂ ⟨hprev, hst₂⟩
  have hst := hst₁.trans hst₂
  have hend := h.valid.entry_upper (coords_ne_nil hN p) hp
  have hbump := h.valid.bump_lt
  have hslot8 := h.valid.slot_ge
  rw [spanOf_record hplen] at hend
  have hwrite : Ensures (do
      let m ← get
      writeU64 (L.ptr p.coords) m.strategy.freeHead) st₂.mount
      (fun _ m' => m'.strategy = st₂.mount.strategy ∧ image m' =
        overlay (image st₂.mount) (L.ptr p.coords) (encode 8 st₂.mount.strategy.freeHead))
      (Faulted st₂.mount) := by
    rw [ensures_bind, ensures_get]
    exact writeFree_spec st₂.mount (by omega)
  refine (onStrategy_spec hwrite).bind ?_ ?_
  · rintro _ st₃ ⟨hst₃, hs₃, hi₃⟩
    rw [ensures_pure]
    have hnode : L.ptr q ≠ 0 := h.valid.parent (hq ▸ hp)
    have hres : slot = ⟨L.ptr q, c, slotAddr (L.ptr q) c, L.ptr (q ++ [c])⟩ := by
      rw [hslot, hq]
      exact @resolve_of_node N L q [] c h.valid.toWired hnode
    refine .inr ⟨slot, prev, rfl, hp, by rw [hres], by rw [hres], hoff, hprev,
      hs₃.trans hst.mount.strategy, ?_, ?_, ?_⟩
    · rw [hi₃, hst.mount.image, hst.mount.strategy, h.fields.freeHead]
    · rw [← hst.len, hst₃]
    · rw [← hst.dirty, hst₃]
  · rintro _ st₃ ⟨hst₃, e, rfl, hf⟩
    exact (faultedStore_of_faulted hst₃ hf).trans hst

theorem ncard_release (hlen : q.length = N) (hq : L.ptr q ≠ 0) :
    ((L.release q).live N).ncard = (L.live N).ncard - 1 := by
  rw [live_release]
  exact Set.ncard_sdiff_singleton_of_mem ⟨hlen, hq⟩

theorem removeFinish_spec {st₀ : CoordMapStore 64 N σ} {slot : Slot} {prev : Bytes}
    (h : Holds st₀ L) (hN : 0 < N) (hq : p.coords = q ++ [c])
    (hs : Freeing L p q c st₀ st slot prev) :
    Ensures (removeFinish (some (slot, prev))) st
      (fun a st' => a = some (L.val p.coords) ∧ Holds st' (L.release p.coords) ∧
        Follows st₀.mount L st'.mount (L.release p.coords) ∧
        st'.dirty = true) Broken := by
  obtain ⟨hp, hleaf, hindex, hoff, rfl, hs, hi, hl, hd⟩ := hs
  have hplen := p.length_coords
  rw [hq] at hplen hp hoff hi ⊢
  have hqlen : q.length + 1 = N := by simpa using hplen
  have hnode := h.mount.valid.parent hp
  have hlt := node_lt h.mount.valid hN hnode (by omega)
  rw [removeFinish, hoff, writeLeaf, hleaf, hindex]
  have hmod : Ensures (modify fun m : Mount N σ => { m with
      strategy := { m.strategy with freeHead := L.ptr (q ++ [c]) } } : BindingProgram N σ Unit)
      st.mount (fun _ m' => m' = ⟨{ st.mount.strategy with freeHead := L.ptr (q ++ [c]) },
        st.mount.origin⟩) (fun _ _ => False) := ensures_modify.mpr rfl
  refine (onStrategy_spec hmod).bind ?_ fun _ _ h => h.2.elim fun _ h => h.2.elim
  rintro _ st₁ ⟨hst₁, hm₁⟩
  refine (onStrategy_spec (writeSlot_spec st₁.mount hlt)).bind ?_ ?_
  · rintro _ st₂ ⟨hst₂, hs₂, hi₂⟩
    rw [ensures_bind, ensures_modify, ensures_pure]
    have hstrat : st₂.mount.strategy =
        { st₀.mount.strategy with freeHead := L.ptr (q ++ [c]) } := by
      rw [hs₂, hm₁, hs]
    have himage : image st₂.mount =
        released (image st₀.mount) (L.ptr q) c (L.ptr (q ++ [c])) (L.free.headD 0) := by
      rw [hi₂, hm₁, released, ← hi]
      rfl
    refine ⟨rfl, ⟨h.mount.release hN hplen hp hstrat himage, ?_⟩,
      follows_release h.mount hN hplen hp himage, rfl⟩
    rw [ncard_release hplen hp, ← h.len, ← hl, hst₂, hst₁]
  · rintro _ st₂ ⟨hst₂, e, rfl, hf⟩
    exact refused_map.mpr (hf.imp fun _ hs => hs.1)

theorem removePath_spec (h : Holds st L) (hN : 0 < N) (p : CoordPath N) :
    Ensures (removePath p) st
      (fun a st' => Done L (L.remove p) st a st' ∧
        (L.ptr p.coords = 0 ∧ SameStore st st' ∨ st'.dirty = true)) Broken := by
  obtain ⟨q, c, hq, hqlen⟩ := coords_split hN p
  rw [removePath_split]
  refine (removeStage_spec h.mount hN hq).bind ?_ fun _ _ hf => broken_of_faulted hf
  rintro s st₁ (⟨rfl, h0, hst₁⟩ | ⟨slot, prev, rfl, hs⟩)
  · have hrem : L.remove p = (.ok none, L) := by rw [remove, if_pos h0]
    rw [removeFinish, ensures_pure, hrem]
    exact ⟨⟨rfl, h.congr hst₁, follows_of_same hst₁.mount L⟩, .inl ⟨h0, hst₁⟩⟩
  · have hrem : L.remove p = (.ok (some (L.val p.coords)), L.release p.coords) := by
      rw [remove, if_neg hs.linked]
    refine (removeFinish_spec h hN hq hs).mono ?_ fun _ _ hb => hb
    rintro a st₂ ⟨rfl, hH, hy, hd⟩
    rw [hrem]
    exact ⟨⟨rfl, hH, hy⟩, .inr hd⟩

/-- The fields that `TreeStrategy::new` and `reset` set. -/
def freshFields (N slot : ℕ) : TreeStrategy N where
  recordSlotSize := slot
  bump := rootOffset + nodeSpan
  freeHead := absent
  nodeSize := nodeSpan
  recordCount := 0

theorem tracks_fresh (slot : ℕ) : Tracks (freshFields N slot) (empty slot) := ⟨rfl, rfl, rfl, rfl⟩

/-- Fresh fields over a root without linked slots represent the empty layout. -/
theorem represents_empty {m : Mount N σ} {slot : ℕ} (hN : 0 < N) (h8 : 8 ≤ slot)
    (h64 : slot < 2 ^ 64) (hs : Tracks m.strategy (empty slot))
    (hroot : ∀ c, wordAt (image m) (slotAddr rootOffset c) = 0)
    (hedge : RootEdge (image m).length) : Represents m (empty slot) where
  valid := empty_valid hN h8 h64
  fields := hs
  stored := by
    have hnil : ∀ q, (empty slot).ptr q ≠ 0 → q = [] := by
      intro q hq
      by_contra hne
      simp [empty, hne] at hq
    refine ⟨fun q c _ hq => ?_, fun q hne _ hq => absurd (hnil q hq) hne, hedge, trivial,
      fun q hlen hq => ?_⟩
    · obtain rfl := hnil q hq
      have h0 : (empty slot).ptr ([] ++ [c]) = 0 := by simp [empty]
      rw [h0]
      exact hroot c
    · obtain rfl := hnil q hq
      simp at hlen
      omega

theorem live_empty (hN : 0 < N) (slot : ℕ) : (empty slot).live N = ∅ := by
  ext q
  simp only [live, Set.mem_ofPred_eq, Set.mem_empty_iff_false, iff_false]
  rintro ⟨hq, hp⟩
  have hne : q ≠ [] := by
    rintro rfl
    simp at hq
    omega
  simp [empty, hne] at hp

theorem synced_empty {b : Bytes} {slot : ℕ} (hzero : ∀ c, ¬Occupied b rootOffset c) :
    Synced N b (empty slot) := by
  intro q c _ hq
  have hnil : q = [] := by
    by_contra hne
    simp [empty, hne] at hq
  subst hnil
  have h0 : (empty slot).ptr ([] ++ [c]) = 0 := by simp [empty]
  rw [h0]
  exact iff_of_false (hzero c) (by simp)

omit [ByteOrigin σ] in
theorem new_spec (o : σ) {slot : ℕ} (h8 : 8 ≤ slot) :
    (CoordMapStore.new o slot : Except (Stop MapError) (CoordMapStore 64 N σ)) =
      .ok ⟨⟨freshFields N slot, o⟩, 0, false⟩ := by
  have : slotBytes = 8 := rfl
  rw [CoordMapStore.new, TreeStrategy.new, if_neg (by omega)]
  rfl

/-- A new store over an empty origin. -/
theorem fresh_holds {o : σ} (ho : ByteOrigin.bytes o = []) (hN : 0 < N) {slot : ℕ} (h8 : 8 ≤ slot)
    (h64 : slot < 2 ^ 64) {dirty : Bool} :
    Holds (⟨⟨freshFields N slot, o⟩, 0, dirty⟩ : CoordMapStore 64 N σ) (empty slot) ∧
      Synced N (image (⟨freshFields N slot, o⟩ : Mount N σ)) (empty slot) := by
  have hi : image (⟨freshFields N slot, o⟩ : Mount N σ) = [] := ho
  refine ⟨⟨represents_empty hN h8 h64 (tracks_fresh slot) (fun c => ?_) ?_, ?_⟩, ?_⟩
  · rw [hi]
    exact wordAt_of_length_le (Nat.zero_le _)
  · rw [hi]
    exact rootEdge_of_le_root (Nat.zero_le _)
  · rw [live_empty hN, Set.ncard_empty]
  · rw [hi]
    refine synced_empty fun c => ?_
    rw [Occupied, peek_of_le (Nat.zero_le _)]
    simp

structure Cleared (slot : ℕ) (st' : CoordMapStore 64 N σ) : Prop where
  holds : Holds st' (empty slot)
  synced : Synced N (image st'.mount) (empty slot)
  header : HeaderAt (image st'.mount) (freshFields N slot)
  strategy : st'.mount.strategy = freshFields N slot
  dirty : st'.dirty = false

theorem peek_cleared {b : Bytes} {h : Bytes} (hh : h.length = 64) {i : ℕ} (h₁ : rootOffset ≤ i)
    (h₂ : i < rootEnd) :
    peek (overlay (overlay b rootOffset (List.replicate nodeSpan 0)) 0 h) i = 0 := by
  have : rootOffset = 64 := rfl
  have : rootEnd = rootOffset + nodeSpan := rfl
  rw [peek_overlay_of_not (by omega), peek_overlay, if_pos ⟨h₁, by rw [List.length_replicate]; omega⟩,
    peek, List.getD_eq_getElem?_getD, List.getElem?_replicate]
  split <;> rfl

/-- The bytes after the root is zeroed and the fresh header written. -/
def clearedBytes (N slot : ℕ) (b : Bytes) : Bytes :=
  overlay (overlay b rootOffset (List.replicate nodeSpan 0)) 0 (headerBytes (freshFields N slot))

structure Emptied (slot : ℕ) (st st' : CoordMapStore 64 N σ) : Prop where
  strategy : st'.mount.strategy = freshFields N slot
  image : image st'.mount = clearedBytes N slot (image st.mount)
  len : st'.len = 0
  dirty : st'.dirty = false

/-- A failed `clear_checked` has reset the allocator and perhaps zeroed the root. -/
structure HalfCleared (slot : ℕ) (st st' : CoordMapStore 64 N σ) : Prop where
  strategy : st'.mount.strategy = freshFields N slot
  image : image st'.mount = image st.mount ∨
    image st'.mount = overlay (image st.mount) rootOffset (List.replicate nodeSpan 0)
  len : st'.len = st.len
  dirty : st'.dirty = st.dirty

theorem reset_spec {m : Mount N σ} {slot : ℕ} (hslot : m.strategy.recordSlotSize = slot)
    (hnode : m.strategy.nodeSize = nodeSpan) :
    Ensures reset m
      (fun _ m' => m'.strategy = freshFields N slot ∧ image m' = clearedBytes N slot (image m))
      (Refused fun _ m' => ByteOrigin.mayFail σ ∧ m'.strategy = freshFields N slot ∧
        (image m' = image m ∨ image m' = overlay (image m) rootOffset (List.replicate nodeSpan 0))) := by
  rw [reset, ensures_bind, ensures_modify, ensures_bind, ensures_get]
  dsimp only
  rw [hnode, hslot]
  have hpos : 0 < (List.replicate nodeSpan (0 : UInt8)).length := by
    rw [List.length_replicate]
    decide
  have hend : rootOffset + (List.replicate nodeSpan (0 : UInt8)).length < 2 ^ 64 := by
    rw [List.length_replicate]
    have : rootOffset = 64 := rfl
    have : nodeSpan = 90773 := rfl
    omega
  refine (writeOrigin_spec _ (List.ne_nil_of_length_pos hpos) hend).bind ?_ ?_
  · intro _ m₁ hm₁
    obtain ⟨hs₁, hi₁⟩ := hm₁
    refine (writeHeader_spec m₁).mono ?_ ?_
    · intro _ m₂ hm₂
      exact ⟨hm₂.1.trans hs₁, by rw [hm₂.2, hi₁, hs₁]; rfl⟩
    · intro _ m₂ hf
      exact hf.mono fun _ _ hs => ⟨hs.1, hs.2.strategy.trans hs₁, .inr (hs.2.image.trans hi₁)⟩
  · intro _ m₁ hf
    exact hf.mono fun _ _ hs => ⟨hs.1, hs.2.strategy, .inl hs.2.image⟩

theorem clearChecked_emptied {slot : ℕ} (hslot : st.mount.strategy.recordSlotSize = slot)
    (hnode : st.mount.strategy.nodeSize = nodeSpan) :
    Ensures clearChecked st (fun _ st' => Emptied slot st st')
      (Refused fun _ st' => ByteOrigin.mayFail σ ∧ HalfCleared slot st st') := by
  rw [clearChecked]
  refine (onStrategy_spec (reset_spec hslot hnode)).bind ?_ ?_
  · rintro _ st₁ ⟨hst₁, hs₁, hi₁⟩
    rw [ensures_modify]
    exact ⟨hs₁, hi₁, rfl, rfl⟩
  · rintro _ st₁ ⟨hst₁, e, rfl, hf⟩
    refine refused_map.mpr (hf.imp fun _ hs => ⟨hs.1, hs.2.1, hs.2.2, ?_, ?_⟩) <;> rw [hst₁]

/-- The fields and the bytes that `clear_checked` leaves represent the empty layout. -/
theorem cleared_of_emptied {slot : ℕ} (h : Emptied slot st st') (hN : 0 < N) (h8 : 8 ≤ slot)
    (h64 : slot < 2 ^ 64) : Cleared slot st' := by
  have hhead := length_headerBytes (freshFields N slot)
  have hi := h.image
  have hedge : RootEdge (image st'.mount).length := by
    refine rootEdge_of_le ?_
    have : rootEnd = rootOffset + nodeSpan := rfl
    rw [hi, clearedBytes, length_overlay, length_overlay, List.length_replicate]
    omega
  refine ⟨⟨represents_empty hN h8 h64 (h.strategy ▸ tracks_fresh slot) (fun c => ?_) hedge, ?_⟩,
    ?_, ?_, h.strategy, h.dirty⟩
  · have hge := slotAddr_ge rootOffset c
    have hle := slotAddr_le rootOffset c
    rw [hi]
    exact wordAt_zero fun i _ _ => peek_cleared hhead (by omega) (by unfold rootEnd; omega)
  · rw [live_empty hN, Set.ncard_empty]
    exact h.len
  · refine synced_empty fun c => ?_
    have hge := bitAddr_ge rootOffset c
    have hlt := bitAddr_lt rootOffset c
    have : nodeSpan = 90773 := rfl
    rw [hi, Occupied, clearedBytes, peek_cleared hhead hge (by unfold rootEnd; omega)]
    simp
  · rw [hi]
    exact headerAt_overlay ..

theorem clearChecked_spec {slot : ℕ} (hN : 0 < N) (h8 : 8 ≤ slot) (h64 : slot < 2 ^ 64)
    (hslot : st.mount.strategy.recordSlotSize = slot)
    (hnode : st.mount.strategy.nodeSize = nodeSpan) :
    Ensures clearChecked st (fun _ st' => Cleared slot st') Broken :=
  (clearChecked_emptied hslot hnode).mono (fun _ _ h => cleared_of_emptied h hN h8 h64)
    fun _ _ hf => hf.mono fun _ _ hs => hs.1

end Chton.MapUpdates
