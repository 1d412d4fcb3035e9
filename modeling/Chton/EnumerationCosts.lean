import Chton.CallCosts
import Chton.SpaceAccounts
import Mathlib.Algebra.BigOperators.Fin

/-!
# What an enumeration costs its origin

An enumeration reads the bitmap of every node and the slot of everything a node links, and
then the records. It skips the slots that are not in use, but not the nodes whose records
have been removed: its cost follows the paths that were ever stored, not those that still are.
-/

namespace Chton.EnumerationCosts
open OutcomePrograms CallRuns ByteRegions Origins TreeStrategyProgram CoordMapProgram
open PrefixTreeTraversals StoreLayouts StoreLayouts.Layout LayoutImages StrategyCalls
open StoreRepresentations TreeDescents RecordCalls MapCalls LayoutContents Enumerations StoreRuns
open AreaPartitions SpaceAccounts CallCosts

variable {P : Prices} {σ α : Type} [ByteOrigin σ]

theorem charged_ensures {price : ℕ} {x : EStateM (Stop OriginError) σ α} {o : Metered P σ}
    {Q : α → σ → Prop} {F : σ → Prop}
    (h : Ensures x o.inner Q (Refused fun _ s => ByteOrigin.mayFail σ ∧ F s)) :
    Ensures (charged price x : EStateM (Stop OriginError) (Metered P σ) α) o
      (fun a o' => Q a o'.inner) (Refused fun _ o' => ByteOrigin.mayFail σ ∧ F o'.inner) := by
  constructor
  · intro a o' hx
    simp only [charged] at hx
    split at hx <;> cases hx
    exact h.ok ‹_›
  · intro e o' hx
    simp only [charged] at hx
    split at hx <;> cases hx
    exact (h.error ‹_›).imp fun _ hf => hf

instance : ByteOrigin (Metered P σ) where
  bytes o := ByteOrigin.bytes o.inner
  mayFail := ByteOrigin.mayFail σ
  len_eq o := ByteOrigin.len_eq o.inner
  read_spec o offset n := charged_ensures (ByteOrigin.read_spec o.inner offset n)
  write_spec o offset data hdata hend := charged_ensures (ByteOrigin.write_spec o.inner offset data hdata hend)
  flush_spec o := charged_ensures (ByteOrigin.flush_spec o.inner)

variable {N : ℕ} {m : Mount N (Metered P σ)} {L : Layout} {pre q : List Coord} {k : ℕ}

/-- The call leaves everything as it is and is charged `c`. -/
abbrev Reads (x : BindingProgram N (Metered P σ) α) (m : Mount N (Metered P σ)) (c : ℕ) : Prop :=
  Ensures x m (fun _ m' => Same m m' ∧ m'.origin.spent = m.origin.spent + c) fun _ _ => True

/-- A bitmap is read unless the node lies behind the end of the origin. -/
def bitmapPrice (m : Mount N (Metered P σ)) (node : ℕ) : ℕ :=
  if (image m).length ≤ node then 0 else P.read bitmapBytes

theorem readOrigin_reads (m : Mount N (Metered P σ)) (offset n : ℕ) :
    Reads (onOrigin (Origin.read offset n)) m (P.read n) :=
  ((readOrigin_spec m offset n).and (charged_spec _ m)).mono (fun _ _ h => ⟨h.1.2, h.2.2⟩)
    fun _ _ _ => trivial

theorem readBitmap_reads (m : Mount N (Metered P σ)) (node : ℕ) :
    Reads (readBitmap node) m (bitmapPrice m node) := by
  refine (originLen_spec m).bind ?_ fun _ _ h => h
  rintro _ m' ⟨rfl, rfl⟩
  rw [bitmapPrice]
  refine ensures_ite (fun hge => ?_) fun hlt => ?_
  · rw [if_pos hge, ensures_pure]
    exact ⟨Same.refl m', rfl⟩
  · rw [if_neg hlt]
    refine (readOrigin_reads m' node bitmapBytes).andThen fun data m₁ h₁ => ?_
    exact ensures_ite (fun _ => ensures_throw.mpr trivial) fun _ => ensures_pure.mpr h₁

theorem readSlot_reads (m : Mount N (Metered P σ)) {pos : ℕ} (h : pos < (image m).length) :
    Reads (readSlot pos) m (P.read slotBytes) := by
  refine (originLen_spec m).bind ?_ fun _ _ h => h
  rintro _ m' ⟨rfl, rfl⟩
  rw [if_neg (Nat.not_le_of_gt h)]
  refine (readOrigin_reads m' pos slotBytes).andThen fun data m₁ h₁ => ?_
  exact ensures_ite (fun _ => ensures_throw.mpr trivial) fun _ => ensures_pure.mpr h₁

theorem readChild_reads (h : Represents m L) (hq : L.ptr q ≠ 0) (hlen : q.length < N) {c : Coord}
    (hp : L.ptr (q ++ [c]) ≠ 0) :
    Ensures (readSlot (slotAddr (L.ptr q) c)) m (fun v m' => v = L.ptr (q ++ [c]) ∧
      Same m m' ∧ m'.origin.spent = m.origin.spent + P.read slotBytes) fun _ _ => True := by
  have hin : slotAddr (L.ptr q) c < (image m).length := by
    by_contra hout
    apply hp
    rw [← h.stored.tree.slots q c hlen hq]
    exact wordAt_of_length_le (Nat.le_of_not_gt hout)
  exact ((readChild_spec h.valid h.stored.tree hq hlen).and (readSlot_reads m hin)).mono
    (fun _ _ h => ⟨h.1.1, h.2⟩) fun _ _ _ => trivial

def fanPrice (P : Prices) (L : Layout) (q : List Coord) (cost : Coord → ℕ) (c : Coord) : ℕ :=
  if L.ptr (q ++ [c]) = 0 then 0 else P.read slotBytes + cost c

theorem walkNode_reads {β : Type} {b : β} {visit : β → Coord → ℕ → BindingProgram N (Metered P σ) β}
    {cost : Coord → ℕ} (h : Represents m L) (hsync : Synced N (image m) L) (hN : 0 < N)
    (hq : L.ptr q ≠ 0) (hlen : q.length < N)
    (hvisit : ∀ c b m', L.ptr (q ++ [c]) ≠ 0 → Same m m' →
      Reads (visit b c (L.ptr (q ++ [c]))) m' (cost c)) :
    Reads (do
      let bitmap ← readBitmap (L.ptr q)
      (List.finRange nValid).foldlM (fun b c => do
        if peek bitmap (c.val / 8) &&& bitOf c = 0 then pure b else
        let pos ← slotPos (L.ptr q) c
        let value ← readSlot pos
        if value = absent then pure b else visit b c value) b) m
      (bitmapPrice m (L.ptr q) + ∑ c, fanPrice P L q cost c) := by
  have hbitmap := (nodeBitmap_spec h hq hlen).and (readBitmap_reads m (L.ptr q))
  refine hbitmap.bind ?_ fun _ _ _ => trivial
  rintro bitmap m₁ ⟨⟨hbits, -⟩, hm₁⟩
  rw [Fin.sum_univ_def]
  refine Ensures.foldlM (fun visited b m' => Same m m' ∧ m'.origin.spent = m.origin.spent +
    (bitmapPrice m (L.ptr q) + (visited.map (fanPrice P L q cost)).sum)) hm₁ ?_
  rintro visited c rest b m' - ⟨hm, hspent⟩
  rw [List.map_append, List.sum_append, List.map_singleton, List.sum_singleton]
  have hbit : peek bitmap (c.val / 8) &&& bitOf c = 0 ↔ L.ptr (q ++ [c]) = 0 := by
    rw [hbits, bitmap_bit, hsync q c hlen hq, not_not]
  refine ensures_ite (fun hb => ?_) fun hb => ?_
  · rw [ensures_pure, fanPrice, if_pos (hbit.mp hb)]
    exact ⟨hm, hspent⟩
  · have hp : L.ptr (q ++ [c]) ≠ 0 := fun hp => hb (hbit.mpr hp)
    rw [fanPrice, if_neg hp]
    apply (slotPos_spec m' (node_lt h.valid hN hq hlen)).andThen
    rintro _ m' ⟨rfl, rfl⟩
    apply (readChild_reads (h.congr hm) hq hlen hp).andThen
    rintro _ m₂ ⟨rfl, hm₂, hspent₂⟩
    rw [if_neg hp]
    refine (hvisit c b m₂ hp (hm.trans hm₂)).mono ?_ fun _ _ h => h
    rintro b' m₃ ⟨hm₃, hspent₃⟩
    refine ⟨hm.trans (hm₂.trans hm₃), ?_⟩
    rw [hspent₃, hspent₂, hspent]
    omega

def walkPrice (P : Prices) (L : Layout) : ℕ → List Coord → ℕ
  | 0, _ => 0
  | k + 1, pre => ∑ c, fanPrice P L pre
      (fun c => (if k = 0 then 0 else P.read bitmapBytes) + walkPrice P L k (pre ++ [c])) c

theorem bitmapPrice_node (h : Represents m L) (hq : L.ptr q ≠ 0) (hne : q ≠ [])
    (hlen : q.length < N) : bitmapPrice m (L.ptr q) = P.read bitmapBytes := by
  have hspan := h.stored.nodes q hne hlen hq
  have hpos : 0 < nodeSpan := by decide
  exact if_neg (by omega)

theorem iterNode_reads (hN : 0 < N) {path : CoordPath N} {out : List (CoordPath N × ℕ)}
    (h : Represents m L) (hsync : Synced N (image m) L) (hpre : L.ptr pre ≠ 0)
    (hlen : pre.length + (k + 1) = N) :
    Reads (iterNode pushEntry (k + 1) (L.ptr pre) pre.length path out) m
      (bitmapPrice m (L.ptr pre) + walkPrice P L (k + 1) pre) := by
  induction k generalizing m pre path out with
  | zero =>
    rw [iterNode, walkPrice]
    refine walkNode_reads h hsync hN hpre (by omega) fun c out' m' hp hm => ?_
    dsimp only
    rw [if_pos (by omega)]
    exact ensures_pure.mpr ⟨Same.refl m', rfl⟩
  | succ k ih =>
    rw [iterNode, walkPrice]
    refine walkNode_reads h hsync hN hpre (by omega) fun c out' m' hp hm => ?_
    have hlen' : (pre ++ [c]).length + (k + 1) = N := by simp; omega
    have h' := h.congr hm
    dsimp only
    rw [if_neg (by omega), if_neg (Nat.succ_ne_zero k)]
    apply (checkChildInBounds_spec m' (h'.stored.nodes _ (by simp) (by omega) hp)
      (node_lt h.valid hN hp (by omega))).andThen
    rintro _ m' rfl
    have hrec := @ih m' (pre ++ [c]) (path.set pre.length c) out' h' (hm.image.symm ▸ hsync) hp hlen'
    rw [List.length_append, List.length_singleton,
      bitmapPrice_node h' hp (by simp) (by omega)] at hrec
    exact hrec

/-- How many prefixes are linked below a node, within `k` levels. -/
def linkedBelow (L : Layout) (k : ℕ) (pre : List Coord) : ℕ :=
  (below (List.finRange nValid) (fun q => L.ptr q ≠ 0) k pre).length

theorem linkedBelow_succ : linkedBelow L (k + 1) pre =
    ∑ c, if L.ptr (pre ++ [c]) = 0 then 0 else 1 + linkedBelow L k (pre ++ [c]) := by
  rw [linkedBelow, below, List.length_flatMap, Fin.sum_univ_def]
  apply congrArg List.sum
  apply List.map_congr_left
  intro c _
  by_cases hc : L.ptr (pre ++ [c]) = 0
  · simp [hc]
  · simp [hc, linkedBelow, Nat.add_comm]

/-- A slot for everything linked below, and a bitmap for what is not a record. -/
theorem walkPrice_eq : walkPrice P L k pre =
    linkedBelow L k pre * P.read slotBytes + linkedBelow L (k - 1) pre * P.read bitmapBytes := by
  induction k generalizing pre with
  | zero => simp [walkPrice, linkedBelow, below]
  | succ k ih =>
    rw [walkPrice, linkedBelow_succ, Nat.add_sub_cancel, Finset.sum_mul]
    cases k with
    | zero =>
      have hzero : linkedBelow L 0 pre = 0 := rfl
      rw [hzero, Nat.zero_mul, Nat.add_zero]
      apply Finset.sum_congr rfl
      intro c _
      by_cases hc : L.ptr (pre ++ [c]) = 0
      · simp [fanPrice, hc]
      · simp [fanPrice, hc, ih, linkedBelow, below]
    | succ k =>
      rw [linkedBelow_succ, Finset.sum_mul, ← Finset.sum_add_distrib]
      apply Finset.sum_congr rfl
      intro c _
      by_cases hc : L.ptr (pre ++ [c]) = 0
      · simp [fanPrice, hc]
      · simp [fanPrice, hc, ih]
        ring

def linkedWords (L : Layout) (k : ℕ) : Set (List Coord) := {q | q ≠ [] ∧ q.length ≤ k ∧ L.ptr q ≠ 0}

theorem linkedWords_eq (h : L.Valid N) (k : ℕ) : linkedWords L k =
    ((below (List.finRange nValid) (fun q => L.ptr q ≠ 0) k []).toFinset : Set (List Coord)) := by
  ext q
  rw [List.coe_toFinset, linkedWords, Set.mem_ofPred_eq, Set.mem_ofPred_eq,
    mem_below (fun _ _ => h.toWired.parent) List.mem_finRange]
  simp only [List.nil_append]
  constructor
  · exact fun hq => ⟨hq.2.2, q, rfl, hq.1, hq.2.1⟩
  · rintro ⟨hq, rest, rfl, hne, hk⟩
    exact ⟨hne, hk, hq⟩

theorem linkedBelow_root (h : L.Valid N) (k : ℕ) : linkedBelow L k [] = (linkedWords L k).ncard := by
  rw [linkedWords_eq h, Set.ncard_coe_finset,
    List.toFinset_card_of_nodup (nodup_below (List.pairwise_lt_finRange _)), linkedBelow]

theorem iter_reads (hN : 0 < N) (h : Represents m L) (hsync : Synced N (image m) L) :
    Reads iter m (bitmapPrice m rootOffset + walkPrice P L N []) := by
  obtain ⟨k, rfl⟩ : ∃ k, N = k + 1 := ⟨N - 1, by omega⟩
  have hspec := @iterNode_reads P σ _ (k + 1) m L [] k hN (CoordPath.zero (k + 1)) [] h hsync
    (root_ne_zero h.valid.toWired) (by simp)
  rw [h.valid.root] at hspec
  exact hspec

def recordReads (P : Prices) (n : ℕ) : ℕ := P.read lengthBytes + P.read n

variable {st : CoordMapStore 64 N (Metered P σ)}

abbrev spent (st : CoordMapStore 64 N (Metered P σ)) : ℕ := st.mount.origin.spent

theorem mapRead_reads (st : CoordMapStore 64 N (Metered P σ)) (offset n : ℕ) :
    Ensures (onMapOrigin (Origin.read offset n)) st
      (fun data st' => data.length ≤ n ∧ spent st' = spent st + P.read n) fun _ _ => True := by
  have hspent : Ensures (onMapOrigin (Origin.read offset n)) st
      (fun _ st' => spent st' = spent st + P.read n) fun _ _ => True := by
    rw [onMapOrigin, ensures_focus]
    exact (charged_spent _ st.mount.origin).mono (fun _ _ h => h) fun _ _ _ => trivial
  refine ((mapRead_spec st offset n).and hspent).mono ?_ fun _ _ _ => trivial
  rintro data st' ⟨⟨rfl, -⟩, h⟩
  exact ⟨List.length_take_le _ _, h⟩

theorem readRecord_reads (st : CoordMapStore 64 N (Metered P σ)) (r : ℕ) :
    Ensures (readRecord r) st (fun v st' => spent st' = spent st + recordReads P v.length)
      fun _ _ => True := by
  rw [readRecord]
  apply (mapRead_reads st r lengthBytes).andThen
  rintro header st₁ ⟨-, h₁⟩
  refine ensures_ite (fun _ => ensures_throw.mpr trivial) fun _ => ?_
  rw [maxValueLen, ensures_bind, ensures_bind, ensures_get]
  refine ensures_ite (fun _ => ensures_throw.mpr trivial) fun _ => ?_
  rw [ensures_pure]
  refine ensures_ite (fun _ => ensures_throw.mpr trivial) fun _ => ?_
  rw [vecZeroed, ite_bind]
  refine ensures_ite (fun _ => ?_) fun _ => ensures_throw.mpr trivial
  rw [ensures_bind, ensures_pure, addU64, ite_bind]
  refine ensures_ite (fun _ => ?_) fun _ => ensures_throw.mpr trivial
  rw [ensures_bind, ensures_pure]
  apply (mapRead_reads st₁ (r + lengthBytes) _).andThen
  rintro v st₂ ⟨hle, h₂⟩
  refine ensures_ite (fun _ => ensures_throw.mpr trivial) fun hge => ensures_pure.mpr ?_
  have hlen := Nat.le_antisymm hle (Nat.le_of_not_gt hge)
  rw [h₂, h₁, recordReads, hlen, Nat.add_assoc]

theorem entries_reads (hN : 0 < N) (h : Represents st.mount L) (hsync : Synced N (image st.mount) L) :
    Ensures entries st (fun es st' => spent st' = spent st +
      (bitmapPrice st.mount rootOffset + walkPrice P L N []) +
      (es.map fun e => recordReads P e.2.length).sum) fun _ _ => True := by
  have hiter : Ensures (onStrategy iter) st (fun _ st' => spent st' = spent st +
      (bitmapPrice st.mount rootOffset + walkPrice P L N [])) fun _ _ => True := by
    rw [onStrategy, ensures_focus]
    exact (iter_reads hN h hsync).mono (fun _ _ h => h.2) fun _ _ h => h
  rw [entries]
  apply hiter.andThen
  intro found st₁ h₁
  refine Ensures.foldlM (fun _ (out : List (CoordKey N × Bytes)) st' => spent st' = spent st +
    (bitmapPrice st.mount rootOffset + walkPrice P L N []) +
    (out.map fun e => recordReads P e.2.length).sum) (by simpa using h₁) ?_
  intro visited e rest out st' _ hout
  apply (readRecord_reads st' e.2).andThen
  intro v st₂ h₂
  rw [ensures_pure, h₂, hout, List.map_append, List.sum_append]
  simp [Nat.add_assoc]

/-- What is read of the root, which may not have been written yet. -/
def rootPrice (st : CoordMapStore 64 N (Metered P σ)) : ℕ := bitmapPrice st.mount rootOffset

/-- The bill of an enumeration that found `es`: all nodes and all records, but no empty slot. -/
structure Billed (a : Account N) (st : CoordMapStore 64 N (Metered P σ))
    (es : List (CoordKey N × Bytes)) (st' : CoordMapStore 64 N (Metered P σ)) : Prop where
  entries : es.length = a.live.card
  spent : spent st' = spent st + rootPrice st +
    (Nodes N (image st.mount)).ncard * P.read bitmapBytes +
    ((Nodes N (image st.mount)).ncard + es.length) * P.read slotBytes +
    (es.map fun e => recordReads P e.2.length).sum
  stored : Beginnings a.stored ⊆ Nodes N (image st.mount)
  touched : Nodes N (image st.mount) ⊆ Beginnings a.touched

theorem linkedWords_nodes (hN : 0 < N) (h : Refines st L) :
    linkedWords L (N - 1) = Nodes N (image st.mount) := by
  ext q
  simp only [Nodes, linkedWords, Set.mem_ofPred_eq]
  apply and_congr_right
  intro hne
  constructor
  · intro hq
    have hlen : q.length < N := by omega
    rw [reach_eq h.holds.mount.valid h.holds.mount.stored hlen.le]
    exact ⟨hlen, hq.2⟩
  · intro hq
    obtain ⟨hlen, hq⟩ := hq
    rw [reach_eq h.holds.mount.valid h.holds.mount.stored hlen.le] at hq
    exact ⟨by omega, hq⟩

/-- Below the root there are the nodes and the records. -/
theorem linkedBelow_all (hN : 0 < N) (h : Refines st L) :
    linkedBelow L N [] = (Nodes N (image st.mount)).ncard + (livePaths N L).length := by
  have hvalid := h.holds.mount.valid
  have hsplit : linkedWords L N = linkedWords L (N - 1) ∪ L.live N := by
    ext q
    simp only [linkedWords, live, Set.mem_union, Set.mem_ofPred_eq]
    constructor
    · intro hq
      by_cases hlen : q.length = N
      · exact .inr ⟨hlen, hq.2.2⟩
      · exact .inl ⟨hq.1, by omega, hq.2.2⟩
    · rintro (hq | hq)
      · exact ⟨hq.1, by omega, hq.2.2⟩
      · exact ⟨List.ne_nil_of_length_pos (by omega), hq.1.le, hq.2⟩
  have hapart : Disjoint (linkedWords L (N - 1)) (L.live N) := by
    rw [Set.disjoint_left]
    intro q hq hlive
    have hlen := hq.2.1
    have hfull := hlive.1
    omega
  have hfinite : (linkedWords L (N - 1)).Finite := by
    rw [linkedWords_eq hvalid]
    exact Finset.finite_toSet _
  rw [linkedBelow_root hvalid, hsplit, Set.ncard_union_eq hapart hfinite (hvalid.live_finite hN),
    linkedWords_nodes hN h, length_livePaths hvalid]

theorem live_card {a : Account N} (h : Refines st L) (hbooks : Books a L) :
    (livePaths N L).length = a.live.card := by
  have hset : a.live = (livePaths N L).toFinset := by
    ext p
    rw [hbooks.live, List.mem_toFinset, mem_livePaths h.holds.mount.valid.toWired, Ne,
      contents_eq_none]
  rw [hset, List.toFinset_card_of_nodup livePaths_nodup]

theorem billed_of_keeps (hfail : NeverFails σ) (hN : 0 < N) {slot : ℕ} {a : Account N}
    (h : SpaceAccounts.Keeps slot st a) : ∃ es st',
      StoreCall.iter.perform st = (.ok (.entries es), st') ∧ Billed a st es st' := by
  have hnever : NeverFails (Metered P σ) := hfail
  have haccounted := accounted_of_keeps hN h
  obtain ⟨L, hL, -, hbooks⟩ := h
  have hboth := (entries_spec hN hL.holds.mount hL.synced).and
    (entries_reads hN hL.holds.mount hL.synced)
  obtain ⟨es, st', hes, ⟨heq, -⟩, hspent⟩ :=
    Ensures.exists_ok (hboth.mono (fun _ _ h => h) fun _ _ h => not_faulted hnever h.1)
  have hlength : es.length = (livePaths N L).length := by
    rw [heq, entriesOf, List.length_map]
  refine ⟨es, st', ?_, ?_, ?_, haccounted.nodes, haccounted.touched⟩
  · exact answer_of_ok (by rw [StoreCall.program, bind_apply, hes]; rfl)
  · rw [hlength, live_card hL hbooks]
  · rw [hspent, rootPrice, walkPrice_eq, linkedBelow_all hN hL,
      linkedBelow_root hL.holds.mount.valid, linkedWords_nodes hN hL, hlength]
    omega

/-- After every run an enumeration costs a bitmap for each node, a slot for each node and each
record, and the records. -/
theorem enumerations_are_billed (hfail : NeverFails σ) (hN : 1 ≤ N) (hN' : N ≤ maxStoreDepth)
    {o : Metered P σ} (ho : ByteOrigin.bytes o.inner = []) (d : SlotSize) :
    ∃ st : CoordMapStore 64 N (Metered P σ), CoordMapStore.new o d.val = .ok st ∧
      ∀ xs : List (Step N), ∃ es st',
        StoreCall.iter.perform (run Step.perform xs st).2 = (.ok (.entries es), st') ∧
          Billed (accountOf xs (run Step.perform xs st).1) (run Step.perform xs st).2 es st' := by
  have hnever : NeverFails (Metered P σ) := hfail
  obtain ⟨st, hnew, hst, -⟩ := @refines_new N (Metered P σ) _ o ho hN d
  refine ⟨st, hnew, fun xs => ?_⟩
  have hkeeps : SpaceAccounts.Keeps d.val (run Step.perform xs st).2
      (accountOf xs (run Step.perform xs st).1) :=
    run_history (fun x _ _ h => keeps_step hnever hN hN' x h) ⟨_, hst, rfl, books_empty hN d.val⟩
  exact billed_of_keeps hfail hN hkeeps

theorem enumerations_are_billed_accesses :
    ∃ st : CoordMapStore 64 3 (Metered accesses IdealOrigin),
      CoordMapStore.new ⟨⟨[]⟩, 0⟩ 16 = .ok st ∧ ∀ xs : List (Step 3), ∃ es st',
        StoreCall.iter.perform (run Step.perform xs st).2 = (.ok (.entries es), st') ∧
          Billed (accountOf xs (run Step.perform xs st).1) (run Step.perform xs st).2 es st' :=
  enumerations_are_billed IdealOrigin.neverFails (by decide) (by decide) rfl ⟨16, by decide⟩

end Chton.EnumerationCosts
