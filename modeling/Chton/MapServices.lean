import Chton.StoreRuns
import Chton.KeyedMaps

/-!
# What a store offers to the layers above it

Over an origin that never fails each operation of a store is an operation on the map
that the store stands for. The layers above use a store through these specifications
only.
-/

namespace Chton.MapServices
open OutcomePrograms CallRuns ByteRegions Origins TreeStrategyProgram CoordMapProgram
open StoreLayouts StoreLayouts.Layout TreeDescents RecordCalls MapCalls MapUpdates
open LayoutContents Enumerations StoreRuns KeyedMaps

variable {N : ℕ} {σ : Type} [ByteOrigin σ] {slot : ℕ} {st : CoordMapStore 64 N σ} {f : PathMap N}

/-- The store keeps the map `f` in slots of `slot` bytes. -/
def Backs (slot : ℕ) (st : CoordMapStore 64 N σ) (f : PathMap N) : Prop :=
  ∃ L, Refines st L ∧ L.slot = slot ∧ L.contents = f

/-- The error of an allocation that would pass the end of `u64`: it names the bump pointer of
the store that it leaves. -/
def NoRoom (slot : ℕ) (st : CoordMapStore 64 N σ) (e : Stop MapError) : Prop :=
  e = .err (.binding (.origin (.outOfBounds st.mount.strategy.bump (2 ^ 64 - 1)))) ∧
    2 ^ 64 ≤ st.mount.strategy.bump + max nodeSpan slot

theorem backs_new (hN : 0 < N) {o : σ} (ho : ByteOrigin.bytes o = []) (d : SlotSize) :
    ∃ st : CoordMapStore 64 N σ, CoordMapStore.new o d.val = .ok st ∧
      Backs d.val st fun _ => none := by
  obtain ⟨st, hnew, hst, -⟩ := refines_new ho hN d
  exact ⟨st, hnew, _, hst, rfl, contents_empty hN d.val⟩

theorem getPath_backs (hfail : NeverFails σ) (hN : 0 < N) (h : Backs slot st f) (p : CoordPath N) :
    Ensures (getPath p) st (fun v st' => v = f p ∧ Backs slot st' f) fun _ _ => False := by
  obtain ⟨L, hL, rfl, rfl⟩ := h
  apply (getPath_spec hL.holds.mount.readable hN p).mono
  · intro v st' hv
    exact ⟨hv.1, L, hL.congr hv.2, rfl, rfl⟩
  · exact fun e st' hf => not_faulted hfail hf

/-- A put goes through, is refused for its size, or finds no room. -/
theorem putPath_refines (hfail : NeverFails σ) (hN : 0 < N) {L : Layout} (hL : Refines st L)
    (p : CoordPath N) {v : Bytes} (hv : v.length < 2 ^ 63) :
    Ensures (putPath p v) st
      (fun prev st' => Stored L p v ∧ prev = L.contents p ∧ Refines st' (L.put p v).2)
      fun e st' => v.length > L.slot - lengthBytes ∧ st' = st ∨
        v.length ≤ L.slot - lengthBytes ∧ Overflowed L p v ∧ NoRoom L.slot st' e ∧
          Backs L.slot st' L.contents := by
  have hvalid := hL.holds.mount.valid
  by_cases hbig : v.length > L.slot - lengthBytes
  · apply (putPath_tooLarge hL.holds p hbig).mono
    · exact fun _ _ hf => hf.elim
    · exact fun e st' he => .inl ⟨hbig, he.2⟩
  · have hsmall := Nat.le_of_not_gt hbig
    have hlost := (lost_put hvalid p v).trans hL.whole
    apply (putPath_spec hL.holds hN p hv).mono
    · intro prev st' hdone
      obtain ⟨⟨hvalue, hholds, hfollows⟩, -⟩ := hdone
      rcases put_cases hvalid p v with htoo | hs | ho
      · exact absurd htoo hbig
      · have hprev := Except.ok.inj (hvalue.symm.trans hs.reply)
        exact ⟨hs, hprev, hholds, hfollows.synced hL.synced, hlost⟩
      · exact nomatch hvalue.symm.trans ho.reply
    · intro e st' hor
      rcases hor with href | hb
      · rcases put_cases hvalid p v with htoo | hs | ho
        · exact absurd htoo hbig
        · exact nomatch hs.reply.symm.trans href.error
        · have hfull := ho.exhausted
          rw [Exhausted, ho.kept.slot] at hfull
          have herror := Except.error.inj (href.error.symm.trans ho.reply)
          have hlen : st'.len = ((L.put p v).2.live N).ncard := by
            rw [live_of_kept href.kept, href.len, hL.holds.len]
          rw [areaFull, ← href.mount.fields.bump] at herror
          rw [← href.mount.fields.bump] at hfull
          exact .inr ⟨hsmall, ho, ⟨herror, hfull⟩, _,
            ⟨⟨href.mount, hlen⟩, href.follows.synced hL.synced, hlost⟩, ho.kept.slot,
            contents_kept ho.kept⟩
      · exact (not_broken hfail hb).elim

theorem putPath_backs (hfail : NeverFails σ) (hN : 0 < N) (h : Backs slot st f) (p : CoordPath N)
    {v : Bytes} (hv : v.length < 2 ^ 63) :
    Ensures (putPath p v) st
      (fun prev st' => v.length ≤ slot - lengthBytes ∧ prev = f p ∧
        Backs slot st' (Function.update f p (some v)))
      fun e st' => v.length > slot - lengthBytes ∧ st' = st ∨
        v.length ≤ slot - lengthBytes ∧ NoRoom slot st' e ∧ Backs slot st' f := by
  obtain ⟨L, hL, rfl, rfl⟩ := h
  apply (putPath_refines hfail hN hL p hv).mono
  · intro prev st' hdone
    obtain ⟨hs, hprev, hL'⟩ := hdone
    exact ⟨Nat.le_of_not_gt hs.small, hprev, _, hL', hs.slot, hs.contents⟩
  · intro e st' hor
    cases hor with
    | inl htoo => exact .inl htoo
    | inr hfull => exact .inr ⟨hfull.1, hfull.2.2⟩

theorem removePath_backs (hfail : NeverFails σ) (hN : 0 < N) (h : Backs slot st f)
    (p : CoordPath N) :
    Ensures (removePath p) st
      (fun prev st' => prev = f p ∧ Backs slot st' (Function.update f p none))
      fun _ _ => False := by
  obtain ⟨L, hL, rfl, rfl⟩ := h
  obtain ⟨hreply, hcontents, hslot, hlost⟩ := remove_contents L p
  apply (removePath_spec hL.holds hN p).mono
  · intro prev st' hdone
    obtain ⟨⟨hvalue, hholds, hfollows⟩, -⟩ := hdone
    have hprev := Except.ok.inj (hvalue.symm.trans hreply)
    exact ⟨hprev, _, ⟨hholds, hfollows.synced hL.synced, hlost.trans hL.whole⟩, hslot, hcontents⟩
  · exact fun e st' hb => not_broken hfail hb

theorem clearChecked_backs (hfail : NeverFails σ) (hN : 0 < N) (h : Backs slot st f) :
    Ensures clearChecked st (fun _ st' => Backs slot st' fun _ => none) fun _ _ => False := by
  obtain ⟨L, hL, rfl, rfl⟩ := h
  have hmount := hL.holds.mount
  apply (clearChecked_spec hN hmount.valid.slot_ge hmount.valid.slot_lt hmount.fields.slot
    hmount.fields.nodeSize).mono
  · intro _ st' hclear
    exact ⟨_, ⟨hclear.holds, hclear.synced, rfl⟩, rfl, contents_empty hN L.slot⟩
  · exact fun e st' hb => not_broken hfail hb

theorem entries_backs (hfail : NeverFails σ) (hN : 0 < N) (h : Backs slot st f) :
    Ensures entries st (fun es st' => Backs slot st' f ∧
      ∃ ps, Lists f ps ∧ ps.map f = es.map fun e => some e.2) fun _ _ => False := by
  obtain ⟨L, hL, rfl, rfl⟩ := h
  have hvalid := hL.holds.mount.valid
  apply (entries_spec hN hL.holds.mount hL.synced).mono
  · intro es st' hes
    obtain ⟨rfl, hsame⟩ := hes
    refine ⟨⟨L, hL.congr hsame, rfl, rfl⟩, livePaths N L, ⟨livePaths_nodup, fun p => ?_⟩, ?_⟩
    · rw [mem_livePaths hvalid.toWired, Ne, Ne, contents_eq_none]
    · rw [entriesOf, List.map_map]
      apply List.map_congr_left
      intro p hp
      exact contents_linked ((mem_livePaths hvalid.toWired).mp hp)
  · exact fun e st' hf => not_faulted hfail hf

theorem len_backs (h : Backs slot st f) : ∃ ps, Lists f ps ∧ st.len = ps.length := by
  obtain ⟨L, hL, -, rfl⟩ := h
  have hvalid := hL.holds.mount.valid
  refine ⟨livePaths N L, ⟨livePaths_nodup, fun p => ?_⟩, ?_⟩
  · rw [mem_livePaths hvalid.toWired, Ne, Ne, contents_eq_none]
  · rw [length_livePaths hvalid, hL.holds.len]

/-- A store with an entry has found room for a record of `slot` bytes. -/
theorem room_of_backs (hN : 0 < N) (h : Backs slot st f) {p : CoordPath N} (hp : f p ≠ none) :
    rootEnd + slot < 2 ^ 64 := by
  obtain ⟨L, hL, rfl, rfl⟩ := h
  have hvalid := hL.holds.mount.valid
  have hlinked : L.ptr p.coords ≠ 0 := fun h0 => hp (contents_absent h0)
  have hlower := hvalid.entry_lower (coords_ne_nil hN p) hlinked
  have hupper := hvalid.entry_upper (coords_ne_nil hN p) hlinked
  have hbump := hvalid.bump_lt
  rw [spanOf_record p.length_coords] at hupper
  omega

end Chton.MapServices
