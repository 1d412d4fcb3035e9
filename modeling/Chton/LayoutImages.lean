import Chton.LayoutTransitions
import Chton.ByteBits

/-!
# Layouts in bytes

`Image` says that a byte region holds a layout: every linked node has its slots, the
free list is threaded through the free records, and every record has its length and
payload. `Synced` adds that the occupancy bitmaps agree with the slots. The two are
separate because a bitmap write can fail after its slot write succeeded.
-/

namespace Chton.LayoutImages
open ByteRegions LittleEndianWords ByteBits Origins TreeStrategyProgram CoordMapProgram
open StoreLayouts StoreLayouts.Layout

def bitAddr (n : ℕ) (c : Coord) : ℕ := n + c.val / 8

def Occupied (b : Bytes) (n : ℕ) (c : Coord) : Prop := peek b (bitAddr n c) &&& bitOf c ≠ 0

/-- The root node may be written only in part; no slot and no bitmap is cut in two. -/
def RootEdge (len : ℕ) : Prop :=
  (len ≤ rootOffset ∨ rootOffset + bitmapBytes ≤ len) ∧
    ∀ c : Coord, slotAddr rootOffset c + 8 ≤ len ∨ len ≤ slotAddr rootOffset c

def RecordAt (b : Bytes) (a : ℕ) (v : Bytes) : Prop :=
  a + 8 + v.length ≤ b.length ∧ wordAt b a = v.length ∧ window b (a + 8) v.length = v

/-- Each free record holds the address of the next one. -/
def FreeChain (b : Bytes) : List ℕ → Prop
  | [] => True
  | a :: rest => a + 8 ≤ b.length ∧ wordAt b a = rest.headD 0 ∧ FreeChain b rest

structure Image (N : ℕ) (b : Bytes) (L : Layout) : Prop where
  slots : ∀ q c, q.length < N → L.ptr q ≠ 0 → wordAt b (slotAddr (L.ptr q) c) = L.ptr (q ++ [c])
  nodes : ∀ q, q ≠ [] → q.length < N → L.ptr q ≠ 0 → L.ptr q + nodeSpan ≤ b.length
  root : RootEdge b.length
  chain : FreeChain b L.free
  records : ∀ q, q.length = N → L.ptr q ≠ 0 → RecordAt b (L.ptr q) (L.val q)

/-- The nodes and slots of a layout, without its records and its free list. -/
structure TreeImage (N : ℕ) (b : Bytes) (L : Layout) : Prop where
  slots : ∀ q c, q.length < N → L.ptr q ≠ 0 → wordAt b (slotAddr (L.ptr q) c) = L.ptr (q ++ [c])
  nodes : ∀ q, q ≠ [] → q.length < N → L.ptr q ≠ 0 → L.ptr q + nodeSpan ≤ b.length
  root : RootEdge b.length

theorem Image.tree {N : ℕ} {b : Bytes} {L : Layout} (h : Image N b L) : TreeImage N b L :=
  ⟨h.slots, h.nodes, h.root⟩

def Payloads (N : ℕ) (b : Bytes) (L : Layout) : Prop :=
  ∀ q, q.length = N → L.ptr q ≠ 0 → RecordAt b (L.ptr q) (L.val q)

theorem TreeImage.image {N : ℕ} {b : Bytes} {L : Layout} (h : TreeImage N b L)
    (hchain : FreeChain b L.free) (hrec : Payloads N b L) : Image N b L :=
  ⟨h.slots, h.nodes, h.root, hchain, hrec⟩

def Synced (N : ℕ) (b : Bytes) (L : Layout) : Prop :=
  ∀ q c, q.length < N → L.ptr q ≠ 0 → (Occupied b (L.ptr q) c ↔ L.ptr (q ++ [c]) ≠ 0)

variable {N : ℕ} {b b' v : Bytes} {L : Layout} {c c' : Coord} {n r i len len' : ℕ}

theorem slotAddr_eq (n : ℕ) (c : Coord) : slotAddr n c = n + bitmapBytes + c.val * slotBytes := rfl

theorem slotAddr_ge (n : ℕ) (c : Coord) : n + 1397 ≤ slotAddr n c := Nat.le_add_right _ _

theorem slotAddr_le (n : ℕ) (c : Coord) : slotAddr n c + 8 ≤ n + nodeSpan := by
  have hc : c.val < 11172 := c.isLt
  change n + 1397 + c.val * 8 + 8 ≤ n + 90773
  omega

theorem slotAddr_apart (n : ℕ) (h : c ≠ c') :
    slotAddr n c + 8 ≤ slotAddr n c' ∨ slotAddr n c' + 8 ≤ slotAddr n c := by
  have hc : c.val ≠ c'.val := fun h' => h (Fin.ext h')
  change n + 1397 + c.val * 8 + 8 ≤ n + 1397 + c'.val * 8 ∨
    n + 1397 + c'.val * 8 + 8 ≤ n + 1397 + c.val * 8
  omega

theorem bitAddr_ge (n : ℕ) (c : Coord) : n ≤ bitAddr n c := Nat.le_add_right _ _

theorem bitAddr_lt (n : ℕ) (c : Coord) : bitAddr n c < n + 1397 := by
  have hc : c.val < 11172 := c.isLt
  change n + c.val / 8 < n + 1397
  omega

theorem bitOf_ne_zero (c : Coord) : bitOf c ≠ 0 :=
  shift_ne_zero ⟨c.val % 8, Nat.mod_lt _ (by decide)⟩

theorem bitOf_disjoint (h : c ≠ c') (hb : c.val / 8 = c'.val / 8) : bitOf c &&& bitOf c' = 0 := by
  have hc : c.val ≠ c'.val := fun h' => h (Fin.ext h')
  refine shift_disjoint ⟨c.val % 8, Nat.mod_lt _ (by decide)⟩ ⟨c'.val % 8, Nat.mod_lt _ (by decide)⟩ ?_
  intro h'
  have := congrArg Fin.val h'
  simp only at this
  omega

theorem rootEdge_of_le (h : rootEnd ≤ len) : RootEdge len := by
  rw [rootEnd_eq] at h
  refine ⟨.inr (by change 64 + 1397 ≤ len; omega), fun c => .inl ?_⟩
  have := slotAddr_le rootOffset c
  have : rootOffset + nodeSpan = 90837 := rfl
  omega

theorem rootEdge_of_le_root (h : len ≤ rootOffset) : RootEdge len := by
  refine ⟨.inl h, fun c => .inr ?_⟩
  have := slotAddr_ge rootOffset c
  omega

theorem rootEdge_slot (c : Coord) : RootEdge (slotAddr rootOffset c + 8) := by
  refine ⟨.inr ?_, fun c' => ?_⟩
  · have := slotAddr_ge rootOffset c
    change rootOffset + 1397 ≤ _
    omega
  · by_cases h : c = c'
    · subst h
      exact .inl le_rfl
    · have := slotAddr_apart rootOffset h
      omega

theorem RootEdge.max (h : RootEdge len) (h' : RootEdge len') : RootEdge (max len len') := by
  rcases le_total len len' with hle | hle
  · rwa [Nat.max_eq_right hle]
  · rwa [Nat.max_eq_left hle]

/-- The bytes after `write_slot`: the slot word, then the occupancy bit. -/
def setSlot (b : Bytes) (n : ℕ) (c : Coord) (v : ℕ) : Bytes :=
  let b₁ := overlay b (slotAddr n c) (encode 8 v)
  overlay b₁ (bitAddr n c)
    [if v = absent then peek b₁ (bitAddr n c) &&& ~~~(bitOf c) else peek b₁ (bitAddr n c) ||| bitOf c]

theorem length_setSlot {v : ℕ} :
    (setSlot b n c v).length = max b.length (slotAddr n c + 8) := by
  have := bitAddr_lt n c
  have := slotAddr_ge n c
  simp only [setSlot, length_overlay, length_encode, List.length_singleton]
  omega

theorem peek_setSlot_outside {v : ℕ} (h : i < n ∨ n + nodeSpan ≤ i) :
    peek (setSlot b n c v) i = peek b i := by
  have := bitAddr_ge n c
  have := bitAddr_lt n c
  have := slotAddr_ge n c
  have := slotAddr_le n c
  have : nodeSpan = 90773 := rfl
  rw [setSlot, peek_overlay_of_not (by simp only [List.length_singleton]; omega),
    peek_overlay_of_not (by simp only [length_encode]; omega)]

theorem wordAt_setSlot {v : ℕ} (hv : v < 2 ^ 64) (c' : Coord) :
    wordAt (setSlot b n c v) (slotAddr n c') =
      if c' = c then v else wordAt b (slotAddr n c') := by
  have hb := bitAddr_lt n c
  have hs := slotAddr_ge n c'
  have hbit : wordAt (setSlot b n c v) (slotAddr n c') =
      wordAt (overlay b (slotAddr n c) (encode 8 v)) (slotAddr n c') :=
    wordAt_congr fun i h₁ _ => peek_overlay_of_not (by simp only [List.length_singleton]; omega)
  rw [hbit]
  by_cases h : c' = c
  · subst h
    rw [if_pos rfl, wordAt_overlay hv]
  · rw [if_neg h]
    have := slotAddr_apart n h
    exact wordAt_congr fun i h₁ h₂ => peek_overlay_of_not (by simp only [length_encode]; omega)

theorem occupied_setSlot {v : ℕ} (c' : Coord) :
    Occupied (setSlot b n c v) n c' ↔ if c' = c then v ≠ 0 else Occupied b n c' := by
  have hs := slotAddr_ge n c
  have hb := bitAddr_lt n c
  have hb' := bitAddr_lt n c'
  have hslot : ∀ x : Coord, peek (overlay b (slotAddr n c) (encode 8 v)) (bitAddr n x) =
      peek b (bitAddr n x) := by
    intro x
    have := bitAddr_lt n x
    exact peek_overlay_of_not (by omega)
  by_cases haddr : bitAddr n c' = bitAddr n c
  · have hbyte : peek (setSlot b n c v) (bitAddr n c') =
        if v = absent then peek b (bitAddr n c) &&& ~~~(bitOf c)
        else peek b (bitAddr n c) ||| bitOf c := by
      rw [setSlot, haddr, peek_overlay, if_pos ⟨le_rfl, by simp⟩, hslot, Nat.sub_self]
      rfl
    rw [Occupied, hbyte]
    by_cases h : c' = c
    · subst h
      rw [if_pos rfl]
      by_cases hv : v = absent
      · simp [hv, and_not_and_self]
      · simp [hv, or_and_self, bitOf_ne_zero]
    · have hd : bitOf c &&& bitOf c' = 0 :=
        bitOf_disjoint (Ne.symm h) (by simpa [bitAddr] using haddr.symm)
      rw [if_neg h, Occupied, haddr]
      split
      · rw [and_not_and_of_disjoint hd]
      · rw [or_and_of_disjoint hd]
  · have h : c' ≠ c := fun h => haddr (h ▸ rfl)
    rw [if_neg h, Occupied, Occupied, setSlot,
      peek_overlay_of_not (by simp only [List.length_singleton]; omega), hslot]

/-- The bytes after the length prefix and the payload of a record are written. -/
def setRecord (b : Bytes) (r : ℕ) (v : Bytes) : Bytes :=
  let b₁ := overlay b r (encode 8 v.length)
  if v = [] then b₁ else overlay b₁ (r + 8) v

theorem length_setRecord : (setRecord b r v).length = max b.length (r + 8 + v.length) := by
  simp only [setRecord]
  split
  · simp [*]
  · simp only [length_overlay, length_encode]
    omega

theorem peek_setRecord_outside (h : i < r ∨ r + 8 + v.length ≤ i) :
    peek (setRecord b r v) i = peek b i := by
  have h₁ : peek (overlay b r (encode 8 v.length)) i = peek b i :=
    peek_overlay_of_not (by simp only [length_encode]; omega)
  simp only [setRecord]
  split
  · exact h₁
  · rw [peek_overlay_of_not (by omega), h₁]

theorem recordAt_setRecord (hv : v.length < 2 ^ 64) : RecordAt (setRecord b r v) r v := by
  refine ⟨by rw [length_setRecord]; omega, ?_, ?_⟩
  · simp only [setRecord]
    split
    · exact wordAt_overlay hv
    · rw [wordAt, window_overlay_of_disjoint (by omega)]
      exact wordAt_overlay hv
  · simp only [setRecord]
    split
    · simp [*, window]
    · exact window_overlay rfl

theorem RecordAt.congr (h : RecordAt b r v) (hlen : b.length ≤ b'.length)
    (hsame : ∀ i, r ≤ i → i < r + 8 + v.length → peek b' i = peek b i) : RecordAt b' r v := by
  obtain ⟨h₁, h₂, h₃⟩ := h
  refine ⟨h₁.trans hlen, ?_, ?_⟩
  · rw [← h₂]
    exact wordAt_congr fun i _ _ => hsame i (by omega) (by omega)
  · conv_rhs => rw [← h₃]
    exact window_congr fun i _ _ => hsame i (by omega) (by omega)

theorem FreeChain.congr {l : List ℕ} (h : FreeChain b l) (hlen : b.length ≤ b'.length)
    (hsame : ∀ a ∈ l, ∀ i, a ≤ i → i < a + 8 → peek b' i = peek b i) : FreeChain b' l := by
  induction l with
  | nil => trivial
  | cons a rest ih =>
    obtain ⟨h₁, h₂, h₃⟩ := h
    refine ⟨h₁.trans hlen, ?_, ih h₃ fun a' ha' => hsame a' (by simp [ha'])⟩
    rw [← h₂]
    exact wordAt_congr (hsame a (by simp))

end Chton.LayoutImages
