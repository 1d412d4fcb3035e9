import Chton.AreaNeeds
import Chton.MapServices

/-!
# The room that a store has taken

The area of a store holds no more than is needed for the paths that were put since the store
was last empty, refused puts included. A put that is refused for lack of room therefore means
that these paths and its own do not fit below `2 ^ 64` together.
-/

namespace Chton.StoreSpans
open OutcomePrograms CallRuns ByteRegions Origins TreeStrategyProgram CoordMapProgram
open StoreLayouts StoreLayouts.Layout MapCalls LayoutContents AreaNeeds StoreRuns MapServices

variable {N : ℕ} {σ α : Type} {L : Layout} {ps : List (CoordPath N)}

/-- The paths put since the store was last empty. -/
def MapCall.taken (ps : List (CoordPath N)) : MapCall N → List (CoordPath N)
  | .put p _ => ps ++ [p]
  | .clear => []
  | _ => ps

def StoreCall.taken (ps : List (CoordPath N)) : StoreCall N → List (CoordPath N)
  | .map c => MapCall.taken ps c
  | _ => ps

def takenBy (cs : List (MapCall N)) : List (CoordPath N) := cs.foldl MapCall.taken []

@[simp] theorem takenBy_concat (cs : List (MapCall N)) (c : MapCall N) :
    takenBy (cs ++ [c]) = MapCall.taken (takenBy cs) c := List.foldl_concat _ _ _ _

theorem within_put (hN : 0 < N) (h : Within ps L) (p : CoordPath N) (v : Bytes)
    (hvalid : (L.put p v).2.Valid N) : Within (ps ++ [p]) (L.put p v).2 := by
  rcases put_cases h.valid p v with hv | hs | ho
  · rw [put_tooLarge hv]
    exact h.mono fun q hq => List.mem_append_left _ hq
  · exact h.stored hN hs hvalid
  · exact h.overflowed ho hvalid

theorem within_onLayout (hN : 0 < N) (h : Within ps L) (c : StoreCall N)
    (hvalid : (c.onLayout L).2.Valid N) : Within (StoreCall.taken ps c) (c.onLayout L).2 := by
  cases c with
  | iter => exact h
  | len => exact h
  | flush => exact h
  | map c =>
    cases c with
    | get p => exact h
    | put p v => exact within_put hN h p v.val hvalid
    | remove p => exact h.remove p hvalid
    | clear => exact within_empty hN h.valid.slot_ge h.valid.slot_lt

variable [ByteOrigin σ] {slot : ℕ} {st : CoordMapStore 64 N σ}

/-- The area of the store holds no more than these paths need. -/
def Spans (slot : ℕ) (ps : List (CoordPath N)) (st : CoordMapStore 64 N σ) : Prop :=
  ∃ L, Refines st L ∧ L.slot = slot ∧ Within ps L

theorem Spans.mono {qs : List (CoordPath N)} (h : Spans slot ps st) (hps : ∀ p ∈ ps, p ∈ qs) :
    Spans slot qs st := by
  obtain ⟨L, hL, hslot, hwithin⟩ := h
  exact ⟨L, hL, hslot, hwithin.mono hps⟩

theorem spans_new (hN : 0 < N) {o : σ} (ho : ByteOrigin.bytes o = []) (d : SlotSize) :
    ∃ st : CoordMapStore 64 N σ, CoordMapStore.new o d.val = .ok st ∧
      Spans d.val ([] : List (CoordPath N)) st := by
  obtain ⟨st, hnew, hst, -⟩ := refines_new ho hN d
  exact ⟨st, hnew, _, hst, rfl, within_empty hN d.property.1 d.property.2⟩

theorem spans_perform (hfail : NeverFails σ) (hN : 0 < N) (h : Spans slot ps st)
    (c : StoreCall N) : Spans slot (StoreCall.taken ps c) (c.perform st).2 := by
  obtain ⟨L, hL, rfl, hwithin⟩ := h
  obtain ⟨-, hnext⟩ := c.perform_eq hfail hN hL
  refine ⟨_, hnext, ?_, within_onLayout hN hwithin c hnext.holds.mount.valid⟩
  exact slot_onLayout hL.holds.mount.valid (.call c)

/-- The rule for a program that is a call up to the form of its answer. -/
theorem spans_program (hfail : NeverFails σ) (hN : 0 < N) (h : Spans slot ps st)
    {x : MapProgram 64 N σ α} (c : StoreCall N) (g : α → Answer N)
    (hc : c.program = x >>= fun a => pure (g a)) :
    Ensures x st (fun _ st' => Spans slot (StoreCall.taken ps c) st')
      fun _ st' => Spans slot (StoreCall.taken ps c) st' := by
  have hperform := spans_perform hfail hN h c
  rw [StoreCall.perform, hc, answer_then] at hperform
  exact ensures_answer.mpr hperform

theorem spans_reopen (hfail : NeverFails σ) (hN : 0 < N) (hN' : N ≤ maxStoreDepth)
    (h : Spans slot ps st) (d : SlotSize) :
    Ensures (reopen d) st (fun _ st' => Spans slot ps st') fun _ _ => False := by
  obtain ⟨L, hL, hslot, hwithin⟩ := h
  exact (reopen_spec hfail hN hN' hL d).mono (fun _ st' hst' => ⟨L, hst', hslot, hwithin⟩)
    fun _ _ hf => hf

/-- A put that finds no room needs more than there is, together with the paths before it. -/
theorem putPath_room (hfail : NeverFails σ) (hN : 0 < N) (h : Spans slot ps st) (p : CoordPath N)
    {v : Bytes} (hv : v.length < 2 ^ 63) :
    Ensures (putPath p v) st (fun _ st' => Spans slot (ps ++ [p]) st')
      fun e st' => Spans slot (ps ++ [p]) st' ∧
        (v.length ≤ slot - lengthBytes → NoRoom slot st' e ∧ 2 ^ 64 ≤ areaNeed slot (ps ++ [p])) := by
  have hspans := spans_program hfail hN h (.map (.put p ⟨v, hv⟩)) .value rfl
  obtain ⟨L, hL, rfl, hwithin⟩ := h
  apply (hspans.and (putPath_refines hfail hN hL p hv)).mono
  · exact fun _ _ hdone => hdone.1
  · intro e st' hrefused
    refine ⟨hrefused.1, fun hlen => ?_⟩
    rcases hrefused.2 with ⟨hbig, -⟩ | ⟨-, ho, hroom, -⟩
    · exact absurd hlen (Nat.not_le_of_gt hbig)
    · exact ⟨hroom, hwithin.need_of_overflow hN (Nat.not_lt_of_ge hlen) ho⟩

end Chton.StoreSpans
