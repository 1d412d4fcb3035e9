import Chton.PrefixTreeTraversals
import Chton.MapCalls

/-!
# Enumeration through the occupancy bitmaps

When the bitmaps agree with the slots, the walk of `iter` is the depth-first traversal of
the linked prefixes: it finds every full path that leads to a record, in lexicographic
order, and `count_records` counts the same paths.
-/

namespace Chton.Enumerations
open OutcomePrograms ByteRegions Origins TreeStrategyProgram CoordMapProgram PrefixTreeTraversals
open StoreLayouts StoreLayouts.Layout LayoutImages StrategyCalls StoreRepresentations
open TreeDescents RecordCalls MapCalls

variable {N : ℕ} {σ : Type} [ByteOrigin σ]
variable {m m' : Mount N σ} {L : Layout} {pre q : List Coord} {c : Coord} {k : ℕ}

def paths (L : Layout) (k : ℕ) (pre : List Coord) : List (List Coord) :=
  leaves (List.finRange nValid) (fun q => L.ptr q ≠ 0) k pre

theorem mem_paths (h : Wired N L.ptr) : q ∈ paths L N [] ↔ q ∈ L.live N := by
  rw [paths, mem_leaves (fun _ _ => h.parent) List.mem_finRange (root_ne_zero h)]
  constructor
  · rintro ⟨hq, rest, rfl, hlen⟩
    exact ⟨by simpa using hlen, hq⟩
  · rintro ⟨hlen, hq⟩
    exact ⟨hq, q, rfl, hlen⟩

theorem paths_sorted : (paths L k pre).Pairwise (List.Lex (· < ·)) :=
  sorted_leaves (List.pairwise_lt_finRange _)

theorem paths_nodup : (paths L k pre).Nodup := nodup_leaves (List.pairwise_lt_finRange _)

theorem length_paths (h : L.Valid N) : (paths L N []).length = (L.live N).ncard := by
  have hset : L.live N = ((paths L N []).toFinset : Set (List Coord)) := by
    ext q
    rw [List.coe_toFinset]
    exact (mem_paths h.toWired).symm
  rw [hset, Set.ncard_coe_finset, List.toFinset_card_of_nodup paths_nodup]

theorem peek_window {b : Bytes} {off n i : ℕ} (h : i < n) : peek (window b off n) i = peek b (off + i) := by
  simp [peek, window, List.getD_eq_getElem?_getD, h]

theorem nodeBitmap_spec (h : Represents m L) (hq : L.ptr q ≠ 0) (hlen : q.length < N) :
    Ensures (readBitmap (L.ptr q)) m
      (fun bitmap m' => bitmap = window (image m) (L.ptr q) bitmapBytes ∧ Same m m')
      (Faulted m) := by
  refine readBitmap_spec m ?_
  by_cases h0 : q = []
  · subst h0
    rw [h.valid.root]
    exact h.stored.root.1.symm
  · have := h.stored.nodes q h0 hlen hq
    have : bitmapBytes = 1397 := rfl
    have : nodeSpan = 90773 := rfl
    omega

theorem bitmap_bit {b : Bytes} (n : ℕ) (c : Coord) :
    peek (window b n bitmapBytes) (c.val / 8) &&& bitOf c = 0 ↔ ¬Occupied b n c := by
  have hc : c.val < 11172 := c.isLt
  have : bitmapBytes = 1397 := rfl
  rw [Occupied, not_not, peek_window (by omega)]
  rfl

/-- The loop over one node: a child is visited exactly when it is linked. -/
theorem walkNode_spec {β : Type} {b : β} {visit : β → Coord → ℕ → BindingProgram N σ β}
    (I : List Coord → β → Prop) (h : Represents m L) (hsync : Synced N (image m) L) (hN : 0 < N)
    (hq : L.ptr q ≠ 0) (hlen : q.length < N) (h0 : I [] b)
    (hskip : ∀ visited c b, L.ptr (q ++ [c]) = 0 → I visited b → I (visited ++ [c]) b)
    (hvisit : ∀ visited c rest b m', List.finRange nValid = visited ++ c :: rest →
      L.ptr (q ++ [c]) ≠ 0 → I visited b → Same m m' →
      Ensures (visit b c (L.ptr (q ++ [c]))) m'
        (fun b' m'' => I (visited ++ [c]) b' ∧ Same m' m'') (Faulted m')) :
    Ensures (do
      let bitmap ← readBitmap (L.ptr q)
      (List.finRange nValid).foldlM (fun b c => do
        if peek bitmap (c.val / 8) &&& bitOf c = 0 then pure b else
        let pos ← slotPos (L.ptr q) c
        let value ← readSlot pos
        if value = absent then pure b else visit b c value) b) m
      (fun b' m' => I (List.finRange nValid) b' ∧ Same m m') (Faulted m) := by
  apply (nodeBitmap_spec h hq hlen).andThen
  rintro bitmap m₁ ⟨hbitmap, hm₁⟩
  refine Ensures.foldlM (fun visited b m' => I visited b ∧ Same m m') ⟨h0, hm₁⟩ ?_
  rintro visited c rest b m' hsplit ⟨hI, hm⟩
  have hbit : peek bitmap (c.val / 8) &&& bitOf c = 0 ↔ L.ptr (q ++ [c]) = 0 := by
    rw [hbitmap, bitmap_bit, hsync q c hlen hq, not_not]
  refine ensures_ite (fun hb => ensures_pure.mpr ⟨hskip visited c b (hbit.mp hb) hI, hm⟩)
    fun hb => ?_
  have hp : L.ptr (q ++ [c]) ≠ 0 := fun hp => hb (hbit.mpr hp)
  apply (slotPos_spec m' (node_lt h.valid hN hq hlen)).andThen
  rintro _ m' ⟨rfl, rfl⟩
  refine (readChild_spec h.valid (h.congr hm).stored.tree hq hlen).bind ?_ fun _ _ hf => hf.trans hm
  rintro _ m₂ ⟨rfl, hm₂⟩
  rw [if_neg hp]
  have hm₂ := hm.trans hm₂
  refine (hvisit visited c rest b m₂ hsplit hp hI hm₂).mono ?_ fun _ _ hf => hf.trans hm₂
  exact fun b' m₃ hb' => ⟨hb'.1, hm₂.trans hb'.2⟩

def childPaths (L : Layout) (k : ℕ) (pre : List Coord) (c : Coord) : List (List Coord) :=
  if L.ptr (pre ++ [c]) ≠ 0 then paths L k (pre ++ [c]) else []

theorem childPaths_linked (h : L.ptr (pre ++ [c]) ≠ 0) :
    childPaths L k pre c = paths L k (pre ++ [c]) := if_pos h

theorem childPaths_absent (h : L.ptr (pre ++ [c]) = 0) : childPaths L k pre c = [] :=
  if_neg (not_not.mpr h)

theorem flatMap_childPaths :
    (List.finRange nValid).flatMap (childPaths L k pre) = paths L (k + 1) pre := rfl

theorem take_set_succ {path : CoordPath N} {depth : ℕ} (h : path.coords.take depth = pre)
    (hd : depth < N) (c : Coord) : (path.set depth c).coords.take (depth + 1) = pre ++ [c] := by
  have hlen : depth < path.coords.length := by rw [path.length_coords]; exact hd
  rw [CoordPath.set, List.take_add_one, List.take_set_of_le le_rfl, h, List.getElem?_set_self hlen]
  rfl

/-- The path and the record offset that `iter` reports for an entry. -/
def entryOf (e : CoordPath N × ℕ) : List Coord × ℕ := (e.1.coords, e.2)

def located (L : Layout) (q : List Coord) : List Coord × ℕ := (q, L.ptr q)

theorem iterNode_spec (hN : 0 < N) {path : CoordPath N} {out : List (CoordPath N × ℕ)}
    (h : Represents m L) (hsync : Synced N (image m) L) (hpre : L.ptr pre ≠ 0)
    (hlen : pre.length + (k + 1) = N) (hpath : path.coords.take pre.length = pre) :
    Ensures (iterNode pushEntry (k + 1) (L.ptr pre) pre.length path out) m
      (fun out' m' => out'.map entryOf = out.map entryOf ++ (paths L (k + 1) pre).map (located L) ∧
        Same m m') (Faulted m) := by
  induction k generalizing m pre path out with
  | zero =>
    rw [iterNode, ← flatMap_childPaths]
    refine walkNode_spec (fun visited (out' : List (CoordPath N × ℕ)) => out'.map entryOf =
      out.map entryOf ++ (visited.flatMap (childPaths L 0 pre)).map (located L))
      h hsync hN hpre (by omega) (by simp) (fun visited c out' habs hout => ?_)
      fun visited c _ out' m' _ hp hout hm => ?_
    · simp [childPaths_absent habs, hout]
    · dsimp only
      rw [if_pos (by omega), pushEntry, ensures_pure]
      have hset := take_set_succ hpath (by omega) c
      rw [List.take_of_length_le (by rw [CoordPath.length_coords]; omega)] at hset
      refine ⟨?_, Same.refl m'⟩
      simp [childPaths_linked hp, hout, entryOf, located, paths, leaves, hset]
  | succ k ih =>
    rw [iterNode, ← flatMap_childPaths]
    refine walkNode_spec (fun visited (out' : List (CoordPath N × ℕ)) => out'.map entryOf =
      out.map entryOf ++ (visited.flatMap (childPaths L (k + 1) pre)).map (located L))
      h hsync hN hpre (by omega) (by simp) (fun visited c out' habs hout => ?_)
      fun visited c _ out' m' _ hp hout hm => ?_
    · simp [childPaths_absent habs, hout]
    · have hlen' : (pre ++ [c]).length + (k + 1) = N := by simp; omega
      have h' := h.congr hm
      dsimp only
      rw [if_neg (by omega)]
      apply (checkChildInBounds_spec m' (h'.stored.nodes _ (by simp) (by omega) hp)
        (node_lt h.valid hN hp (by omega))).andThen
      rintro _ m' rfl
      have hset : (path.set pre.length c).coords.take (pre ++ [c]).length = pre ++ [c] := by
        simpa using take_set_succ hpath (by omega) c
      have hrec := @ih m' (pre ++ [c]) (path.set pre.length c) out' h' (hm.image.symm ▸ hsync) hp
        hlen' hset
      rw [List.length_append, List.length_singleton] at hrec
      refine hrec.mono ?_ fun _ _ hf => hf
      rintro out'' m₄ ⟨hout', hm₄⟩
      refine ⟨?_, hm₄⟩
      simp [childPaths_linked hp, hout, hout']

/-- The paths counted so far and those below the next child are among the paths of the node. -/
theorem length_childPaths_le {visited rest : List Coord}
    (hsplit : List.finRange nValid = visited ++ c :: rest) :
    (visited.flatMap (childPaths L k pre)).length + (childPaths L k pre c).length ≤
      (paths L (k + 1) pre).length := by
  rw [← flatMap_childPaths, hsplit]
  simp

theorem countNode_spec (hN : 0 < N) (h : Represents m L) (hsync : Synced N (image m) L)
    (hpre : L.ptr pre ≠ 0) (hlen : pre.length + (k + 1) = N)
    (hfit : (paths L (k + 1) pre).length < 2 ^ 64) :
    Ensures (countNode (k + 1) (L.ptr pre) pre.length) m
      (fun count m' => count = (paths L (k + 1) pre).length ∧ Same m m') (Faulted m) := by
  induction k generalizing m pre with
  | zero =>
    rw [countNode, ← flatMap_childPaths]
    refine walkNode_spec (fun visited count => count =
      (visited.flatMap (childPaths L 0 pre)).length) h hsync hN hpre (by omega) rfl
      (fun visited c count habs hc => by simp [childPaths_absent habs, hc])
      fun visited c rest count m' hsplit hp hc hm => ?_
    have hle : _ ≤ (paths L (0 + 1) pre).length := length_childPaths_le hsplit
    have hone : (childPaths L 0 pre c).length = 1 := by
      rw [childPaths_linked hp]
      rfl
    rw [if_pos (by omega)]
    refine (addU64_spec (by omega)).mono ?_ fun _ _ h => h
    rintro _ m' ⟨hsum, rfl⟩
    exact ⟨by simp [hsum, hc, hone], Same.refl m'⟩
  | succ k ih =>
    rw [countNode, ← flatMap_childPaths]
    refine walkNode_spec (fun visited count => count =
      (visited.flatMap (childPaths L (k + 1) pre)).length) h hsync hN hpre (by omega) rfl
      (fun visited c count habs hc => by simp [childPaths_absent habs, hc])
      fun visited c rest count m' hsplit hp hc hm => ?_
    have hle : _ ≤ (paths L (k + 1 + 1) pre).length := length_childPaths_le hsplit
    rw [childPaths_linked hp] at hle
    have hlen' : (pre ++ [c]).length + (k + 1) = N := by simp; omega
    have h' := h.congr hm
    rw [if_neg (by omega)]
    apply (checkChildInBounds_spec m' (h'.stored.nodes _ (by simp) (by omega) hp)
      (node_lt h.valid hN hp (by omega))).andThen
    rintro _ m' rfl
    have hrec := ih h' (hm.image.symm ▸ hsync) hp hlen' (by omega)
    rw [List.length_append, List.length_singleton] at hrec
    apply hrec.andThen
    rintro below m₂ ⟨hbelow, hm₂⟩
    refine (addU64_spec (by omega)).mono ?_ fun _ _ h => h
    rintro _ m₃ ⟨hsum, rfl⟩
    exact ⟨by simp [hsum, hc, hbelow, childPaths_linked hp], hm₂⟩

theorem length_of_mem_paths (h : q ∈ paths L N []) : q.length = N := by
  obtain ⟨rest, rfl, hlen⟩ := exists_of_mem_leaves h
  simpa using hlen

def livePaths (N : ℕ) (L : Layout) : List (CoordPath N) :=
  (paths L N []).pmap CoordPath.mk fun _ => length_of_mem_paths

theorem map_coords_livePaths : (livePaths N L).map CoordPath.coords = paths L N [] := by
  rw [livePaths, List.map_pmap]
  simp

theorem mem_livePaths (h : Wired N L.ptr) {p : CoordPath N} :
    p ∈ livePaths N L ↔ L.ptr p.coords ≠ 0 := by
  have hp : p ∈ livePaths N L ↔ p.coords ∈ paths L N [] := by
    rw [← map_coords_livePaths, List.mem_map]
    exact ⟨fun hp => ⟨p, hp, rfl⟩, fun ⟨p', hp', hpp⟩ => CoordPath.ext hpp ▸ hp'⟩
  rw [hp, mem_paths h]
  exact ⟨fun hq => hq.2, fun hq => ⟨p.length_coords, hq⟩⟩

theorem sorted_livePaths :
    (livePaths N L).Pairwise fun p p' => List.Lex (· < ·) p.coords p'.coords := by
  rw [← List.pairwise_map, map_coords_livePaths]
  exact paths_sorted

theorem livePaths_nodup : (livePaths N L).Nodup := by
  apply List.Nodup.of_map CoordPath.coords
  rw [map_coords_livePaths]
  exact paths_nodup

theorem length_livePaths (h : L.Valid N) : (livePaths N L).length = (L.live N).ncard := by
  rw [livePaths, List.length_pmap, length_paths h]

theorem entryOf_injective : Function.Injective (entryOf (N := N)) := by
  rintro ⟨p, a⟩ ⟨p', a'⟩ h
  simp only [entryOf, Prod.mk.injEq] at h
  exact Prod.ext (CoordPath.ext h.1) h.2

/-- `iter` reports every live path once, in order, with the offset of its record. -/
theorem iter_spec (hN : 0 < N) (h : Represents m L) (hsync : Synced N (image m) L) :
    Ensures iter m
      (fun found m' => found = (livePaths N L).map (fun p => (p, L.ptr p.coords)) ∧ Same m m')
      (Faulted m) := by
  obtain ⟨k, rfl⟩ : ∃ k, N = k + 1 := ⟨N - 1, by omega⟩
  have hspec := @iterNode_spec (k + 1) σ _ m L [] k hN (CoordPath.zero (k + 1)) [] h
    hsync (root_ne_zero h.valid.toWired) (by simp) (by simp)
  rw [h.valid.root, List.map_nil, List.nil_append] at hspec
  refine Ensures.mono hspec ?_ fun _ _ hf => hf
  rintro found m' ⟨hfound, hm⟩
  refine ⟨List.map_injective_iff.mpr entryOf_injective ?_, hm⟩
  rw [hfound, ← map_coords_livePaths, List.map_map, List.map_map]
  rfl

theorem countRecords_spec (hN : 0 < N) (h : Represents m L) (hsync : Synced N (image m) L) :
    Ensures countRecords m (fun count m' => count = (L.live N).ncard ∧ Same m m') (Faulted m) := by
  have hlen := length_paths h.valid
  have hle := h.valid.live_mul_le hN
  have hbump := h.valid.bump_lt
  obtain ⟨k, rfl⟩ : ∃ k, N = k + 1 := ⟨N - 1, by omega⟩
  have hspec := @countNode_spec (k + 1) σ _ m L [] k hN h hsync
    (root_ne_zero h.valid.toWired) (by simp) (by omega)
  rw [h.valid.root, hlen] at hspec
  exact hspec

/-- What `CoordMapStore::iter` returns. -/
def entriesOf (N : ℕ) (L : Layout) : List (CoordKey N × Bytes) :=
  (livePaths N L).map fun p => (projectByteKey p, L.val p.coords)

theorem entries_spec {st : CoordMapStore 64 N σ} (hN : 0 < N) (h : Represents st.mount L)
    (hsync : Synced N (image st.mount) L) :
    Ensures entries st (fun out st' => out = entriesOf N L ∧ SameStore st st')
      (FaultedStore st) := by
  rw [entries]
  apply (onStrategy_read (iter_spec hN h hsync)).andThen
  rintro found st₁ ⟨hfound, hst₁⟩
  have hout : entriesOf N L = found.map fun e => (projectByteKey e.1, L.val e.1.coords) := by
    rw [hfound, List.map_map]
    rfl
  rw [hout]
  refine Ensures.foldlM (fun (visited : List (CoordPath N × ℕ)) out st' =>
    out = visited.map (fun e => (projectByteKey e.1, L.val e.1.coords)) ∧ SameStore st st')
    ⟨rfl, hst₁⟩ ?_
  rintro visited e rest _ st' hsplit ⟨rfl, hst⟩
  have hmem : e ∈ found := hsplit ▸ List.mem_append_right _ List.mem_cons_self
  obtain ⟨p, hp, rfl⟩ := List.mem_map.mp (hfound ▸ hmem)
  have hlive := (mem_livePaths h.valid.toWired).mp hp
  refine (readEntry_spec (h.congr hst.mount).readable hN hlive).bind ?_ fun _ _ hf => hf.trans hst
  rintro v st₂ ⟨hv, hst₂⟩
  rw [ensures_pure, hv]
  exact ⟨by simp, hst.trans hst₂⟩

end Chton.Enumerations
