import Chton.StoreRuns

/-!
# Enumeration agrees with lookup

The walk over the occupancy bitmaps, the lookup along the slots and the entry counter
are three independent readings of a store. In every state that a run can reach they say
the same.
-/

namespace Chton.EnumerationAgreement
open OutcomePrograms CallRuns ByteRegions Origins TreeStrategyProgram CoordMapProgram
open StoreLayouts StoreLayouts.Layout StrategyCalls StoreRepresentations TreeDescents RecordCalls
open MapCalls LayoutContents Enumerations StoreRuns

variable {N : ℕ} {σ : Type} [ByteOrigin σ] {st : CoordMapStore 64 N σ} {L : Layout}

theorem answer_of_same {ε α τ : Type} {x : EStateM (Stop ε) τ α} {s : τ} {a : α} {S : τ → Prop}
    {E : Stop ε → τ → Prop} (h : Ensures x s (fun b s' => b = a ∧ S s') E)
    (hE : ∀ e s', ¬E e s') : (answer x s).1 = .ok a := by
  obtain ⟨b, s', hx, rfl, -⟩ := answer_ok (h.mono (fun _ _ h => h) fun e s' he => hE e s' he)
  rw [hx]

theorem not_faultedMount (hfail : NeverFails σ) {m m' : Mount N σ} {e : Stop BindingError} :
    ¬Faulted m e m' := by
  intro h
  cases e with
  | err e => exact hfail h.1
  | panic p => exact h

theorem answer_locate (hfail : NeverFails σ) (hN : 0 < N) (h : Refines st L) (p : CoordPath N) :
    (answer (locate p) st.mount).1 = .ok (L.resolve [] p.coords) :=
  answer_of_same (locate_spec h.holds.mount.valid h.holds.mount.stored.tree hN p) fun _ _ => not_faultedMount hfail

theorem answer_getPath (hfail : NeverFails σ) (hN : 0 < N) (h : Refines st L) (p : CoordPath N) :
    (answer (getPath p) st).1 = .ok (L.contents p) :=
  answer_of_same (getPath_spec h.holds.mount.readable hN p) fun _ _ => not_faulted hfail

/-- What `found`, the result of `TreeStrategy::iter`, has to do with the other readings. -/
structure Agrees (st : CoordMapStore 64 N σ) (found : List (CoordPath N × ℕ)) : Prop where
  iter : (answer iter st.mount).1 = .ok found
  located : ∀ p a, (p, a) ∈ found ↔
    a ≠ 0 ∧ ∃ slot, (answer (locate p) st.mount).1 = .ok slot ∧ slot.recordOffset = a
  once : (found.map Prod.fst).Nodup
  ascending : found.Pairwise fun e e' => List.Lex (· < ·) e.1.coords e'.1.coords
  entries : ∃ es, (answer entries st).1 = .ok es ∧ List.Forall₂ (fun e x =>
    x.1 = projectByteKey e.1 ∧ (answer (getPath e.1) st).1 = .ok (some x.2)) found es
  len : st.len = found.length
  count : (answer countRecords st.mount).1 = .ok found.length

theorem mem_found (hN : 0 < N) (h : L.Valid N) {p : CoordPath N} {a : ℕ} :
    (p, a) ∈ (livePaths N L).map (fun p => (p, L.ptr p.coords)) ↔
      a ≠ 0 ∧ (L.resolve [] p.coords).recordOffset = a := by
  rw [recordOffset_resolve h hN, List.mem_map]
  constructor
  · intro hmem
    obtain ⟨p', hp', heq⟩ := hmem
    cases heq
    exact ⟨(mem_livePaths h.toWired).mp hp', rfl⟩
  · intro ha
    obtain ⟨ha, rfl⟩ := ha
    exact ⟨p, (mem_livePaths h.toWired).mpr ha, rfl⟩

theorem agrees_of_refines (hfail : NeverFails σ) (hN : 0 < N) (h : Refines st L) :
    Agrees st ((livePaths N L).map fun p => (p, L.ptr p.coords)) := by
  have hvalid := h.holds.mount.valid
  have hlen : ((livePaths N L).map fun p => (p, L.ptr p.coords)).length = (L.live N).ncard := by
    rw [List.length_map, length_livePaths hvalid]
  constructor
  · exact answer_of_same (iter_spec hN h.holds.mount h.synced) fun _ _ => not_faultedMount hfail
  · intro p a
    rw [mem_found hN hvalid, answer_locate hfail hN h p]
    constructor
    · intro ha
      exact ⟨ha.1, _, rfl, ha.2⟩
    · intro ha
      obtain ⟨ha, slot, hslot, hoff⟩ := ha
      cases hslot
      exact ⟨ha, hoff⟩
  · rw [List.map_map]
    exact (List.map_id _).symm ▸ livePaths_nodup
  · rw [List.pairwise_map]
    exact sorted_livePaths
  · refine ⟨entriesOf N L, ?_, ?_⟩
    · exact answer_of_same (entries_spec hN h.holds.mount h.synced) fun _ _ => not_faulted hfail
    · rw [entriesOf, List.forall₂_map_left_iff, List.forall₂_map_right_iff, List.forall₂_same]
      intro p hp
      have hlinked := (mem_livePaths hvalid.toWired).mp hp
      rw [answer_getPath hfail hN h, contents_linked hlinked]
      exact ⟨rfl, rfl⟩
  · rw [hlen, h.holds.len]
  · rw [hlen]
    exact answer_of_same (countRecords_spec hN h.holds.mount h.synced) fun _ _ => not_faultedMount hfail

/-- In every state that a run reaches, enumeration, lookup and the counter agree. -/
theorem enumeration_agrees (hfail : NeverFails σ) (hN : 0 < N) (hN' : N ≤ maxStoreDepth) {o : σ}
    (ho : ByteOrigin.bytes o = []) (d : SlotSize) :
    ∃ st : CoordMapStore 64 N σ, CoordMapStore.new o d.val = .ok st ∧
      ∀ xs : List (Step N), ∃ found, Agrees (run Step.perform xs st).2 found := by
  obtain ⟨st, hnew, hst, -⟩ := refines_new ho hN d
  refine ⟨st, hnew, fun xs => ?_⟩
  obtain ⟨-, hfinal⟩ := run_steps hfail hN hN' hst xs
  exact ⟨_, agrees_of_refines hfail hN hfinal⟩

theorem enumeration_agrees_ideal :
    ∃ st : CoordMapStore 64 2 IdealOrigin, CoordMapStore.new ⟨[]⟩ 32 = .ok st ∧
      ∀ xs : List (Step 2), ∃ found, Agrees (run Step.perform xs st).2 found :=
  enumeration_agrees IdealOrigin.neverFails (by decide) (by decide) rfl ⟨32, by decide⟩

end Chton.EnumerationAgreement
