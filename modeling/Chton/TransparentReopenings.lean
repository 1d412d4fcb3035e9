import Chton.StoreRuns

/-!
# Reopening is transparent

A run in which the store is flushed, dropped and opened again at any points is compared
with the run of its calls alone. The two stores refine one layout at every moment, and a
layout decides every reply and every allocator field, so no later call can tell them apart.
-/

namespace Chton.TransparentReopenings
open OutcomePrograms CallRuns ByteRegions Origins TreeStrategyProgram CoordMapProgram
open StoreLayouts StoreLayouts.Layout StoreRepresentations MapCalls StoreRuns

variable {N : ℕ} {σ : Type} [ByteOrigin σ] {st st' : CoordMapStore 64 N σ}

/-- Two stores that no call can tell apart. -/
def Alike (st st' : CoordMapStore 64 N σ) : Prop := ∃ L, Refines st L ∧ Refines st' L

/-- The fields that a later call can depend on. -/
structure SameFields (st st' : CoordMapStore 64 N σ) : Prop where
  len : st.len = st'.len
  recordSlotSize : st.recordSlotSize = st'.recordSlotSize
  bump : st.mount.strategy.bump = st'.mount.strategy.bump
  freeHead : st.mount.strategy.freeHead = st'.mount.strategy.freeHead
  nodeSize : st.mount.strategy.nodeSize = st'.mount.strategy.nodeSize

theorem Alike.sameFields (h : Alike st st') : SameFields st st' := by
  obtain ⟨L, hst, hst'⟩ := h
  have hf := hst.holds.mount.fields
  have hf' := hst'.holds.mount.fields
  constructor
  · rw [hst.holds.len, hst'.holds.len]
  · exact hf.slot.trans hf'.slot.symm
  · rw [hf.bump, hf'.bump]
  · rw [hf.freeHead, hf'.freeHead]
  · rw [hf.nodeSize, hf'.nodeSize]

theorem Alike.call (hfail : NeverFails σ) (hN : 0 < N) (h : Alike st st') (c : StoreCall N) :
    (c.perform st).1 = (c.perform st').1 ∧ Alike (c.perform st).2 (c.perform st').2 := by
  obtain ⟨L, hst, hst'⟩ := h
  obtain ⟨hreply, hnext⟩ := c.perform_eq hfail hN hst
  obtain ⟨hreply', hnext'⟩ := c.perform_eq hfail hN hst'
  exact ⟨hreply.trans hreply'.symm, _, hnext, hnext'⟩

theorem Alike.reopen (hfail : NeverFails σ) (hN : 0 < N) (hN' : N ≤ maxStoreDepth)
    (h : Alike st st') (d : SlotSize) :
    ((Step.reopen d).perform st).1 = .ok .done ∧ Alike ((Step.reopen d).perform st).2 st' := by
  obtain ⟨L, hst, hst'⟩ := h
  obtain ⟨hreply, hnext⟩ := (Step.reopen d).perform_eq hfail hN hN' hst
  exact ⟨hreply, L, hnext, hst'⟩

structure TransparentRun (st : CoordMapStore 64 N σ) (xs : List (Step N)) : Prop where
  /-- Every flush and every load succeeds. -/
  opened : ∀ x ∈ xs.zip (run Step.perform xs st).1, x.1.call? = none → x.2 = .ok .done
  /-- Every other reply is the one of the store that was never closed. -/
  replies : (kept (fun x _ => x.call?) xs (run Step.perform xs st).1).map Prod.snd =
    (run StoreCall.perform (xs.filterMap Step.call?) st).1
  /-- So are the length and the fields that later allocations start from. -/
  fields : SameFields (run Step.perform xs st).2
    (run StoreCall.perform (xs.filterMap Step.call?) st).2

theorem run_transparent (hfail : NeverFails σ) (hN : 0 < N) (hN' : N ≤ maxStoreDepth)
    (h : Alike st st) (xs : List (Step N)) : TransparentRun st xs := by
  have hsim : ∀ {s t : CoordMapStore 64 N σ}, Alike s t →
      (kept (fun x _ => x.call?) xs (run Step.perform xs s).1).map Prod.snd =
        (run StoreCall.perform ((kept (fun x _ => x.call?) xs (run Step.perform xs s).1).map
          Prod.fst) t).1 ∧
      Alike (run Step.perform xs s).2 (run StoreCall.perform
        ((kept (fun x _ => x.call?) xs (run Step.perform xs s).1).map Prod.fst) t).2 := by
    intro s t hst
    apply run_simulation_kept
    · intro x _ s t hst hx
      cases x with
      | call c => cases hx
      | reopen d => exact (hst.reopen hfail hN hN' d).2
    · intro x _ s t c hst hx
      cases x with
      | call c' =>
        cases hx
        exact hst.call hfail hN c
      | reopen d => cases hx
    · exact hst
  obtain ⟨hreplies, hfinal⟩ := hsim h
  rw [map_fst_kept Step.call? length_replies] at hreplies hfinal
  refine ⟨?_, hreplies, hfinal.sameFields⟩
  refine run_replies (I := fun s => Alike s s)
    (P := fun (x : Step N) (r : Reply N) => x.call? = none → r = .ok .done) ?_ h
  intro x _ s hs
  cases x with
  | call c =>
    obtain ⟨-, L, hL, -⟩ := hs.call hfail hN c
    exact ⟨fun hx => (nomatch hx), L, hL, hL⟩
  | reopen d =>
    obtain ⟨hreply, L, hL, -⟩ := hs.reopen hfail hN hN' d
    exact ⟨fun _ => hreply, L, hL, hL⟩

/-- Flushing, dropping and opening a store at any points of a run changes no reply. -/
theorem reopen_transparent (hfail : NeverFails σ) (hN : 0 < N) (hN' : N ≤ maxStoreDepth) {o : σ}
    (ho : ByteOrigin.bytes o = []) (d : SlotSize) :
    ∃ st : CoordMapStore 64 N σ, CoordMapStore.new o d.val = .ok st ∧
      ∀ xs : List (Step N), TransparentRun st xs := by
  obtain ⟨st, hnew, hst, -⟩ := refines_new ho hN d
  exact ⟨st, hnew, run_transparent hfail hN hN' ⟨_, hst, hst⟩⟩

theorem reopen_transparent_ideal :
    ∃ st : CoordMapStore 64 6 IdealOrigin, CoordMapStore.new ⟨[]⟩ 64 = .ok st ∧
      ∀ xs : List (Step 6), TransparentRun st xs :=
  reopen_transparent IdealOrigin.neverFails (by decide) (by decide) rfl ⟨64, by decide⟩

end Chton.TransparentReopenings
