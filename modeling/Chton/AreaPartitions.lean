import Chton.PathlessStores

/-!
# The allocated area is partitioned

Everything here is read from the fields and the bytes of a store: the nodes and records
that the slots lead to from the root, and the free list that the head leads to. In every
state that a run can reach they tile the area between the root and the bump pointer.
-/

namespace Chton.AreaPartitions
open OutcomePrograms CallRuns ByteRegions LittleEndianWords Origins TreeStrategyProgram
open CoordMapProgram IntervalTilings StoreLayouts StoreLayouts.Layout LayoutImages StrategyCalls
open StoreRepresentations TreeDescents MapCalls StoreRuns PathlessStores

variable {N : ℕ} {σ : Type} [ByteOrigin σ] {b : Bytes} {L : Layout} {q : List Coord} {c : Coord}

/-- The address the slots lead to along `q`, zero where one of them is absent. -/
def reach (b : Bytes) (q : List Coord) : ℕ :=
  q.foldl (fun a c => if a = 0 then 0 else wordAt b (slotAddr a c)) rootOffset

/-- The records on the free list, followed from its head to the zero at its end. -/
inductive FreeList (b : Bytes) : ℕ → List ℕ → Prop
  | nil : FreeList b 0 []
  | cons {a : ℕ} {rest : List ℕ} (ha : a ≠ 0) (hrest : FreeList b (wordAt b a) rest) :
      FreeList b a (a :: rest)

/-- Who uses a span: a node or a record at the end of a path of slots, or the free list. -/
inductive User where
  | node (q : List Coord)
  | record (q : List Coord)
  | free (a : ℕ)

def Nodes (N : ℕ) (b : Bytes) : Set (List Coord) := {q | q ≠ [] ∧ q.length < N ∧ reach b q ≠ 0}

def Records (N : ℕ) (b : Bytes) : Set (List Coord) := {q | q ≠ [] ∧ q.length = N ∧ reach b q ≠ 0}

def InUse (N : ℕ) (b : Bytes) (fs : List ℕ) : User → Prop
  | .node q => q ∈ Nodes N b
  | .record q => q ∈ Records N b
  | .free a => a ∈ fs

def User.start (b : Bytes) : User → ℕ
  | .node q => reach b q
  | .record q => reach b q
  | .free a => a

def User.size (s : TreeStrategy N) : User → ℕ
  | .node _ => s.nodeSize
  | .record _ => s.recordSlotSize
  | .free _ => s.recordSlotSize

/-- The users of the area, and the equation that follows from counting its bytes. -/
structure Partitioned (s : TreeStrategy N) (b : Bytes) (fs : List ℕ) : Prop where
  list : FreeList b s.freeHead fs
  once : fs.Nodup
  tiling : Tiling {u | InUse N b fs u} (User.start b) (User.size s) (rootOffset + s.nodeSize) s.bump
  bump : s.bump = rootOffset + s.nodeSize + (Nodes N b).ncard * s.nodeSize +
    ((Records N b).ncard + fs.length) * s.recordSlotSize

theorem reach_append : reach b (q ++ [c]) =
    if reach b q = 0 then 0 else wordAt b (slotAddr (reach b q) c) := by
  rw [reach, List.foldl_append]
  rfl

theorem reach_eq (hL : L.Valid N) (h : Image N b L) (hq : q.length ≤ N) : reach b q = L.ptr q := by
  induction q using List.reverseRecOn with
  | nil => exact hL.root.symm
  | append_singleton q c ih =>
    rw [List.length_append, List.length_singleton] at hq
    rw [reach_append, ih (by omega)]
    by_cases h0 : L.ptr q = 0
    · rw [if_pos h0, hL.below q c h0]
    · rw [if_neg h0]
      exact h.slots q c (by omega) h0

theorem freeList_of_chain {fs : List ℕ} (h : FreeChain b fs) (h0 : ∀ a ∈ fs, a ≠ 0) :
    FreeList b (fs.headD 0) fs := by
  induction fs with
  | nil => exact .nil
  | cons a fs ih =>
    obtain ⟨-, hnext, hchain⟩ := h
    have hrest := ih hchain fun a' ha' => h0 a' (List.mem_cons_of_mem a ha')
    rw [← hnext] at hrest
    exact .cons (h0 a List.mem_cons_self) hrest

def userOf (N : ℕ) : Owner → User
  | .entry q => if q.length = N then .record q else .node q
  | .free a => .free a
  | .lost a _ => .free a

theorem length_le_of_linked (hL : L.Valid N) (hq : L.ptr q ≠ 0) : q.length ≤ N := by
  by_contra hlt
  exact hq (hL.deep q (by omega))

theorem users_tile {s : TreeStrategy N} (hL : L.Valid N) (hs : Tracks s L) (h : Image N b L)
    (hlost : L.lost = ∅) :
    Tiling {u | InUse N b L.free u} (User.start b) (User.size s) rootEnd L.bump := by
  have hreach := fun q (hq : L.ptr q ≠ 0) => reach_eq hL h (length_le_of_linked hL hq)
  apply hL.tiling.rename (userOf N)
  · intro o ho
    cases o with
    | entry q =>
      have hlen := length_le_of_linked hL ho.2
      rw [userOf]
      split
      · exact ⟨ho.1, ‹_›, (hreach q ho.2).symm ▸ ho.2⟩
      · exact ⟨ho.1, by omega, (hreach q ho.2).symm ▸ ho.2⟩
    | free a => exact ho
    | lost a n =>
      have hmem : (a, n) ∈ L.lost := ho
      rw [hlost] at hmem
      exact hmem.elim
  · intro u hu
    cases u with
    | node q =>
      obtain ⟨hne, hlen, hq⟩ := hu
      rw [reach_eq hL h (by omega)] at hq
      exact ⟨.entry q, ⟨hne, hq⟩, if_neg (by omega)⟩
    | record q =>
      obtain ⟨hne, hlen, hq⟩ := hu
      rw [reach_eq hL h (by omega)] at hq
      exact ⟨.entry q, ⟨hne, hq⟩, if_pos hlen⟩
    | free a => exact ⟨.free a, hu, rfl⟩
  · intro o ho
    cases o with
    | entry q =>
      rw [userOf]
      split <;> exact hreach q ho.2
    | free a => rfl
    | lost a n => rfl
  · intro o ho
    cases o with
    | entry q =>
      rw [userOf]
      split
      · exact hs.slot.trans (spanOf_record ‹_›).symm
      · have hlen := length_le_of_linked hL ho.2
        exact hs.nodeSize.trans (spanOf_node (by omega)).symm
    | free a => exact hs.slot
    | lost a n =>
      have hmem : (a, n) ∈ L.lost := ho
      rw [hlost] at hmem
      exact hmem.elim

/-- Nodes have one size and records another, so the area has the length of their sum. -/
theorem bump_of_tiling {s : TreeStrategy N} {fs : List ℕ} {lo hi : ℕ} (hfs : fs.Nodup)
    (h : Tiling {u | InUse N b fs u} (User.start b) (User.size s) lo hi) :
    hi = lo + (Nodes N b).ncard * s.nodeSize +
      ((Records N b).ncard + fs.length) * s.recordSlotSize := by
  have hfree : (User.free '' {a | a ∈ fs}).ncard = fs.length := by
    rw [Set.ncard_image_of_injective _ fun a a' ha => User.free.inj ha]
    have hset : {a | a ∈ fs} = (fs.toFinset : Set ℕ) := by
      ext a
      simp
    rw [hset, Set.ncard_coe_finset, List.toFinset_card_of_nodup hfs]
  have hnodes : (User.node '' Nodes N b).ncard = (Nodes N b).ncard :=
    Set.ncard_image_of_injective _ fun q q' hq => User.node.inj hq
  have hrecords : (User.record '' Records N b).ncard = (Records N b).ncard :=
    Set.ncard_image_of_injective _ fun q q' hq => User.record.inj hq
  have hsplit : {u | InUse N b fs u} =
      User.node '' Nodes N b ∪ (User.record '' Records N b ∪ User.free '' {a | a ∈ fs}) := by
    ext u
    cases u <;> simp [InUse]
  have hdisj : Disjoint (User.record '' Records N b) (User.free '' {a | a ∈ fs}) := by
    rw [Set.disjoint_left]
    intro u hu hu'
    obtain ⟨q, -, rfl⟩ := hu
    obtain ⟨a, -, ha⟩ := hu'
    cases ha
  have hfin : (User.record '' Records N b ∪ User.free '' {a | a ∈ fs}).Finite :=
    h.finite.subset (hsplit ▸ Set.subset_union_right)
  have hapart : Disjoint (User.node '' Nodes N b)
      (User.record '' Records N b ∪ User.free '' {a | a ∈ fs}) := by
    rw [Set.disjoint_left]
    intro u hu hu'
    obtain ⟨q, -, rfl⟩ := hu
    rcases hu' with ⟨q', -, hq'⟩ | ⟨a, -, ha⟩
    · cases hq'
    · cases ha
  have hnodeSize : ∀ u ∈ User.node '' Nodes N b, User.size s u = s.nodeSize := by
    intro u hu
    obtain ⟨q, -, rfl⟩ := hu
    rfl
  have hslotSize : ∀ u ∈ User.record '' Records N b ∪ User.free '' {a | a ∈ fs},
      User.size s u = s.recordSlotSize := by
    intro u hu
    rcases hu with ⟨q, -, rfl⟩ | ⟨a, -, rfl⟩ <;> rfl
  have hcount := h.two_kinds hsplit hapart hnodeSize hslotSize
  rw [hnodes, Set.ncard_union_eq hdisj (hfin.subset Set.subset_union_left)
    (hfin.subset Set.subset_union_right), hrecords, hfree] at hcount
  exact hcount

theorem partitioned_of_refines {st : CoordMapStore 64 N σ} (h : Refines st L) :
    Partitioned st.mount.strategy (image st.mount) L.free := by
  have hL := h.holds.mount.valid
  have hfields := h.holds.mount.fields
  have hstored := h.holds.mount.stored
  have htiling := users_tile hL hfields hstored h.whole
  rw [← hfields.bump, show rootEnd = rootOffset + st.mount.strategy.nodeSize by
    rw [hfields.nodeSize]] at htiling
  refine ⟨?_, hL.nodup, htiling, bump_of_tiling hL.nodup htiling⟩
  rw [hfields.freeHead]
  apply freeList_of_chain hstored.chain
  intro a ha h0
  have hlo := hL.free_lower ha
  rw [rootEnd_eq] at hlo
  omega

theorem partitioned_of_pathless {slot : ℕ} {st : CoordMapStore 64 0 σ} (h : Pathless slot st) :
    Partitioned st.mount.strategy (image st.mount) [] := by
  have hnone : {u | InUse 0 (image st.mount) [] u} = ∅ := by
    ext u
    cases u with
    | node q => simp [InUse, Nodes]
    | record q =>
      simp only [InUse, Records, Set.mem_ofPred_eq, Set.mem_empty_iff_false, iff_false]
      intro hq
      exact hq.1 (List.length_eq_zero_iff.mp hq.2.1)
    | free a => simp [InUse]
  have htiling : Tiling {u | InUse 0 (image st.mount) [] u} (User.start (image st.mount))
      (User.size st.mount.strategy) (rootOffset + st.mount.strategy.nodeSize)
      st.mount.strategy.bump := by
    rw [hnone, h.strategy]
    exact Tiling.empty ..
  refine ⟨?_, List.nodup_nil, htiling, bump_of_tiling List.nodup_nil htiling⟩
  rw [h.strategy]
  exact .nil

/-- In every state that a run reaches, the area is partitioned without overlap or leak. -/
theorem area_partitioned (hfail : NeverFails σ) (hN : N ≤ maxStoreDepth) {o : σ}
    (ho : ByteOrigin.bytes o = []) (d : SlotSize) :
    ∃ st : CoordMapStore 64 N σ, CoordMapStore.new o d.val = .ok st ∧ ∀ xs : List (Step N),
      ∃ fs, Partitioned (run Step.perform xs st).2.mount.strategy
        (image (run Step.perform xs st).2.mount) fs := by
  cases N with
  | zero =>
    obtain ⟨st, hnew, hst, -⟩ := pathless_new o d
    refine ⟨st, hnew, fun xs => ?_⟩
    exact ⟨[], partitioned_of_pathless (run_pathless hst xs)⟩
  | succ n =>
    obtain ⟨st, hnew, hst, -⟩ := refines_new ho (Nat.succ_pos n) d
    refine ⟨st, hnew, fun xs => ?_⟩
    obtain ⟨-, hfinal⟩ := run_steps hfail (Nat.succ_pos n) hN hst xs
    exact ⟨_, partitioned_of_refines hfinal⟩

theorem area_partitioned_ideal :
    ∃ st : CoordMapStore 64 3 IdealOrigin, CoordMapStore.new ⟨[]⟩ 16 = .ok st ∧
      ∀ xs : List (Step 3), ∃ fs, Partitioned (run Step.perform xs st).2.mount.strategy
        (image (run Step.perform xs st).2.mount) fs :=
  area_partitioned IdealOrigin.neverFails (by decide) rfl ⟨16, by decide⟩

end Chton.AreaPartitions
