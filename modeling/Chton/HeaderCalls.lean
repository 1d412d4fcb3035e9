import Chton.StoreRepresentations

/-!
# The persisted header

The 64 header bytes decode to the fields they were written from. `load` adopts a header
that passes its checks and keeps the fresh strategy when the origin holds none; the
checks follow from what a represented layout guarantees about the fields.
-/

namespace Chton.HeaderCalls
open OutcomePrograms ByteRegions LittleEndianWords Origins TreeStrategyProgram
open StoreLayouts StoreLayouts.Layout LayoutImages StrategyCalls StoreRepresentations

variable {N : ℕ} {σ : Type} {s : TreeStrategy N}

@[simp] theorem length_headerBytes (s : TreeStrategy N) : (headerBytes s).length = 64 := by
  simp [headerBytes]

theorem headerField_append {front rest : Bytes} {lo k n : ℕ} (hlo : front.length = lo)
    (hn : n < 256 ^ k) : headerField (front ++ (encode k n ++ rest)) lo (lo + k) = n := by
  rw [headerField, Nat.add_sub_cancel_left, ← hlo, List.drop_left,
    List.take_left' (length_encode k n), decode_encode hn]

theorem headerField_head {rest : Bytes} {k n : ℕ} (hn : n < 256 ^ k) :
    headerField (encode k n ++ rest) 0 k = n := by
  rw [headerField, List.drop_zero, Nat.sub_zero, List.take_left' (length_encode k n),
    decode_encode hn]

theorem headerField_word {front rest : Bytes} {lo n : ℕ} (hlo : front.length = lo)
    (hn : n < 2 ^ 64) : headerField (front ++ (encode 8 n ++ rest)) lo (lo + 8) = n :=
  headerField_append hlo (by simpa using hn)

/-- Fields that the eight-byte words of the header can hold. -/
structure FieldsFit (s : TreeStrategy N) : Prop where
  bump : s.bump < 2 ^ 64
  freeHead : s.freeHead < 2 ^ 64
  nodeSize : s.nodeSize < 2 ^ 64
  recordSlotSize : s.recordSlotSize < 2 ^ 64
  recordCount : s.recordCount < 2 ^ 64

theorem headerBytes_eq (s : TreeStrategy N) : headerBytes s =
    encode 4 magic ++ (encode 2 (N % 2 ^ 16) ++ ([0, 0] ++ (encode 8 s.bump ++
      (encode 8 s.freeHead ++ (encode 8 s.nodeSize ++ (encode 8 s.recordSlotSize ++
        (encode 8 s.recordCount ++ List.replicate 16 0))))))) := by
  simp only [headerBytes, List.append_assoc]

structure HeaderFields (h : Bytes) (s : TreeStrategy N) : Prop where
  magic : headerField h 0 4 = magic
  depth : headerField h 4 6 = N
  bump : headerField h 8 16 = s.bump
  freeHead : headerField h 16 24 = s.freeHead
  nodeSize : headerField h 24 32 = s.nodeSize
  recordSlotSize : headerField h 32 40 = s.recordSlotSize
  recordCount : headerField h 40 48 = s.recordCount

theorem headerFields_headerBytes (hN : N ≤ maxStoreDepth) (hs : FieldsFit s) :
    HeaderFields (headerBytes s) s := by
  have hmagic : TreeStrategyProgram.magic < 256 ^ 4 := by
    have : TreeStrategyProgram.magic = 1128813647 := rfl
    omega
  have hdepth : N % 2 ^ 16 < 256 ^ 2 := Nat.mod_lt _ (by omega)
  have hN' : N % 2 ^ 16 = N := by
    have : maxStoreDepth = 1024 := rfl
    omega
  rw [headerBytes_eq]
  refine ⟨headerField_head hmagic, (headerField_append ?_ hdepth).trans hN', ?_, ?_, ?_, ?_, ?_⟩
  · exact length_encode ..
  all_goals rw [← List.append_assoc, ← List.append_assoc]
  · refine headerField_word ?_ hs.bump
    simp
  all_goals rw [← List.append_assoc]
  · refine headerField_word ?_ hs.freeHead
    simp
  all_goals rw [← List.append_assoc]
  · refine headerField_word ?_ hs.nodeSize
    simp
  all_goals rw [← List.append_assoc]
  · refine headerField_word ?_ hs.recordSlotSize
    simp
  · rw [← List.append_assoc]
    refine headerField_word ?_ hs.recordCount
    simp

variable [ByteOrigin σ]

structure HeaderAt (b : Bytes) (s : TreeStrategy N) : Prop where
  room : 64 ≤ b.length
  bytes : b.take 64 = headerBytes s

def NoHeader (b : Bytes) : Prop := b.length < 64 ∨ headerField (b.take 64) 0 4 ≠ magic

theorem headerAt_overlay (b : Bytes) (s : TreeStrategy N) :
    HeaderAt (overlay b 0 (headerBytes s)) s where
  room := by
    rw [length_overlay, length_headerBytes]
    omega
  bytes := by
    rw [overlay, List.take_zero, List.nil_append, ← length_headerBytes s, List.take_left]

theorem writeHeader_spec (m : Mount N σ) :
    Ensures writeHeader m
      (fun _ m' => m'.strategy = m.strategy ∧
        image m' = overlay (image m) 0 (headerBytes m.strategy)) (Faulted m) := by
  rw [writeHeader, ensures_bind, ensures_get]
  have hlen := length_headerBytes m.strategy
  exact writeOrigin_spec m (List.ne_nil_of_length_pos (by omega)) (by omega)

/-- What `load` checks of a header before it adopts the fields. -/
structure Loadable (b : Bytes) (s : TreeStrategy N) : Prop extends FieldsFit s where
  span : s.nodeSize = nodeSpan
  slot_ge : 8 ≤ s.recordSlotSize
  bump_ge : rootEnd ≤ s.bump
  free_lt : s.freeHead = 0 ∨ s.freeHead < b.length

theorem headerBuffer {b : Bytes} (h : 64 ≤ b.length) :
    (b.drop 0).take headerLen ++
      List.replicate (headerLen - ((b.drop 0).take headerLen).length) 0 = b.take 64 := by
  have hlen : ((b.drop 0).take 64).length = 64 := by
    rw [List.length_take, List.length_drop]
    omega
  rw [show headerLen = 64 from rfl, hlen, Nat.sub_self, List.replicate_zero, List.append_nil,
    List.drop_zero]

theorem load_absent {m : Mount N σ} (h : NoHeader (image m)) :
    Ensures load m (fun _ m' => Same m m') (Faulted m) := by
  rw [load]
  apply (originLen_spec m).andThen
  rintro _ m ⟨rfl, rfl⟩
  refine ensures_ite (fun _ => ensures_pure.mpr (Same.refl m)) fun hlen => ?_
  have hroom : 64 ≤ (image m).length := Nat.not_lt.mp hlen
  apply (readOrigin_spec m 0 headerLen).andThen
  rintro data m₁ ⟨hdata, hm⟩
  rw [hdata, headerBuffer hroom]
  dsimp only
  rw [if_pos (h.resolve_left (Nat.not_lt.mpr hroom)), ensures_pure]
  exact hm

theorem load_present {m : Mount N σ} {s : TreeStrategy N} (hN : N ≤ maxStoreDepth)
    (hm : m.strategy.nodeSize = nodeSpan) (hb : HeaderAt (image m) s) (hs : Loadable (image m) s) :
    Ensures load m (fun _ m' => m'.strategy = s ∧ image m' = image m) (Faulted m) := by
  obtain ⟨hmagic, hdepth, hbump, hfree, hnode, hslot, hcount⟩ :=
    headerFields_headerBytes hN hs.toFieldsFit
  rw [load]
  apply (originLen_spec m).andThen
  rintro _ m ⟨rfl, rfl⟩
  rw [if_neg (Nat.not_lt.mpr hb.room)]
  apply (readOrigin_spec m 0 headerLen).andThen
  rintro data m₁ ⟨hdata, hm₁⟩
  rw [hdata, headerBuffer hb.room, hb.bytes]
  dsimp only
  have hchecks : ¬(N ≠ N ∨ nodeSpan ≠ nodeSpan) := by simp
  have hslot8 : ¬s.recordSlotSize < slotBytes := Nat.not_lt.mpr hs.slot_ge
  have hbump' : ¬s.bump < rootOffset + nodeSpan := Nat.not_lt.mpr hs.bump_ge
  have hfree' : ¬(s.freeHead ≠ absent ∧ s.freeHead ≥ (image m).length) := by
    rcases hs.free_lt with h0 | hlt
    · exact fun hc => hc.1 h0
    · exact fun hc => absurd hlt (Nat.not_lt.mpr hc.2)
  rw [hmagic, if_neg (by simp), ensures_bind, ensures_get, hdepth, hnode, hslot, hbump, hfree,
    hcount, hm₁.strategy, hm, hs.span, if_neg hchecks, if_neg hslot8, ensures_bind, ensures_set,
    if_neg hbump', if_neg hfree', ensures_pure]
  refine ⟨?_, hm₁.image⟩
  rw [← hs.span]

end Chton.HeaderCalls
