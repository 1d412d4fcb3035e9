import Chton.StoreRuns
import Chton.StrategyUses

/-!
# The two resolves agree

`locate` and `locate_or_create` return the same slot of a path whose leaf node exists, and
`locate_or_create` makes only nodes that are missing: the record of every path stays where it
was, and two paths never share a leaf slot.
-/

namespace Chton.ResolveAgreement
open OutcomePrograms ByteRegions Origins TreeStrategyProgram CoordMapProgram
open StoreLayouts StoreLayouts.Layout LayoutImages ImageEdits StrategyCalls StoreRepresentations
open TreeDescents RecordCalls MapCalls MapUpdates StoreReopening StoreRuns StrategyUses

variable {N : ℕ} {σ : Type} [ByteOrigin σ]
variable {m m' : Mount N σ} {L G : Layout} {key : CoordPath N} {slot : Slot} {phase : Phase}

structure ResolvesAlike (m : Mount N σ) (key : CoordPath N) (slot : Slot) (m' : Mount N σ) : Prop where
  before : ∃ found m₁, locate key m = .ok found m₁ ∧ found.recordOffset = slot.recordOffset
  after : ∃ m₁, locate key m' = .ok slot m₁
  again : ∃ m₁, locateOrCreate key m' = .ok slot m₁ ∧
    m₁.strategy.bump = m'.strategy.bump ∧ image m₁ = image m'
  others : ∀ other, other ≠ key → ∃ found found' m₁ m₂, locate other m = .ok found m₁ ∧
    locate other m' = .ok found' m₂ ∧ found'.recordOffset = found.recordOffset
  apart : ∀ other slot' m₁, other ≠ key → locateOrCreate other m' = .ok slot' m₁ →
    slot'.leafSlotOffset ≠ slot.leafSlotOffset

/-- A path without coordinates resolves to nothing. -/
theorem pos_of_created (h : locateOrCreate key m = .ok slot m') : 0 < N := by
  apply Nat.pos_of_ne_zero
  rintro rfl
  have hnil : key.coords = [] := List.eq_nil_of_length_eq_zero key.length_coords
  rw [locateOrCreate, hnil] at h
  cases h

theorem locate_ok (hσ : NeverFails σ) (h : TreeAt m L) (hN : 0 < N) (key : CoordPath N) :
    ∃ m₁, locate key m = .ok (L.resolve [] key.coords) m₁ := by
  have hspec := (locate_spec h.valid h.tree hN key).mono (fun _ _ hs => hs)
    fun _ _ he => impossible (Q := False) hσ he
  obtain ⟨slot, m₁, hx, rfl, -⟩ := hspec.exists_ok
  exact ⟨m₁, hx⟩

/-- Slots created one after the other for different paths lie apart. -/
theorem created_apart {L' G' : Layout} {other : CoordPath N} {slot' : Slot}
    (h : Created L key slot G) (hgrows : Grows N G L') (h' : Created L' other slot' G')
    (hne : other ≠ key) : slot'.leafSlotOffset ≠ slot.leafSlotOffset := by
  obtain ⟨q, c, hq, hleaf⟩ := h.leaf
  obtain ⟨q', c', hq', hleaf'⟩ := h'.leaf
  have hlen := hleaf.length
  have hall := hgrows.trans (grows_of_descended h'.descended)
  have hnode := hall.nodes q (by omega) hleaf.node
  have hpaths : q' ++ [c'] ≠ q ++ [c] := by
    intro heq
    apply hne
    apply CoordPath.ext
    rw [hq, hq', heq]
  have hd := leaf_apart h'.descended.valid hleaf'.node hleaf'.length (hall.node (by omega) hleaf.node)
    hlen hpaths
  rw [hleaf.slot, hleaf'.slot, ← hnode]
  exact hd

theorem resolvesAlike_of_created (hσ : NeverFails σ) (h : TreeAt m L)
    (hk : locateOrCreate key m = .ok slot m') : ResolvesAlike m key slot m' := by
  have hN := pos_of_created hk
  obtain ⟨G, hG, hcreated⟩ := (created_spec treeAt_descends h hN key).ok hk
  have hkept := hcreated.descended.kept
  have hoffset (p : CoordPath N) : (G.resolve [] p.coords).recordOffset =
      (L.resolve [] p.coords).recordOffset := by
    rw [recordOffset_resolve hG.valid hN, recordOffset_resolve h.valid hN]
    exact hkept.ptr _ p.length_coords
  constructor
  · obtain ⟨m₁, hx⟩ := locate_ok hσ h hN key
    refine ⟨_, m₁, hx, ?_⟩
    rw [hcreated.resolved, hoffset]
  · obtain ⟨m₁, hx⟩ := locate_ok hσ hG hN key
    rw [hcreated.resolved]
    exact ⟨m₁, hx⟩
  · obtain ⟨q, c, hq, hleaf⟩ := hcreated.leaf
    have hnode : G.ptr key.coords.dropLast ≠ 0 := by
      rw [hq, List.dropLast_concat]
      exact hleaf.node
    have hspec := (locateOrCreate_of_node hG.valid hG.tree hN key hnode).mono (fun _ _ hs => hs)
      fun _ _ he => impossible (Q := False) hσ he
    obtain ⟨slot', m₁, hx, hslot, hsame⟩ := hspec.exists_ok
    rw [hcreated.resolved, ← hslot]
    exact ⟨m₁, hx, by rw [hsame.strategy], hsame.image⟩
  · intro other _
    obtain ⟨m₁, hx₁⟩ := locate_ok hσ h hN other
    obtain ⟨m₂, hx₂⟩ := locate_ok hσ hG hN other
    exact ⟨_, _, m₁, m₂, hx₁, hx₂, hoffset other⟩
  · intro other slot' m₁ hne hk'
    obtain ⟨G', -, hcreated'⟩ := (created_spec treeAt_descends hG hN other).ok hk'
    exact created_apart hcreated (Grows.refl N G) hcreated' hne

/-- From a state that the map's calls reach, a created slot is the one `locate` finds, creating it
again changes nothing, every other record stays where it was, and no later call returns
its position for another path. -/
theorem resolves_agree (hσ : NeverFails σ) {o : σ} (ho : ByteOrigin.bytes o = []) (d : SlotSize) :
    ∃ strategy : TreeStrategy N,
      (TreeStrategy.new d.val : Except (Stop BindingError) (TreeStrategy N)) = .ok strategy ∧
      ∀ phase m, Uses d.val (.idle, ⟨strategy, o⟩) (phase, m) →
        ∀ key slot m', locateOrCreate key m = .ok slot m' →
          ResolvesAlike m key slot m' ∧
          (phase = .idle → ∀ later m₁, Uses d.val (.found slot, m') (later, m₁) →
            ∀ other slot' m₂, other ≠ key → locateOrCreate other m₁ = .ok slot' m₂ →
              slot'.leafSlotOffset ≠ slot.leafSlotOffset) := by
  refine ⟨freshFields N d.val, new_fields d.property.1, fun phase m hrun key slot m' hk => ?_⟩
  have hN := pos_of_created hk
  obtain ⟨hfresh, -⟩ := @fresh_holds N σ _ o ho hN d.val d.property.1 d.property.2 false
  obtain ⟨L, hstanding, hgrows⟩ := uses_run (L := empty d.val) hσ hN hrun
    (.idle hfresh.mount.allocated)
  refine ⟨resolvesAlike_of_created hσ (hstanding.treeAt hN) hk, ?_⟩
  rintro rfl later m₁ hlater other slot' m₂ hne hk'
  cases hstanding with
  | idle h =>
    obtain ⟨G, hG, hcreated⟩ := (created_spec allocated_descends h hN key).ok hk
    obtain ⟨q, c, -, hleaf⟩ := hcreated.leaf
    have hslot : d.val = G.slot := (hcreated.descended.kept.slot.trans hgrows.slot).symm
    rw [hslot] at hlater
    obtain ⟨L₁, hstanding₁, hgrows₁⟩ := uses_run hσ hN hlater (.found hG hleaf)
    obtain ⟨G', -, hcreated'⟩ := (created_spec treeAt_descends (hstanding₁.treeAt hN) hN other).ok hk'
    exact created_apart hcreated hgrows₁ hcreated' hne

/-- Creating succeeds where the missing nodes fit. -/
theorem created_ok (hσ : NeverFails σ) (h : TreeAt m L) (hN : 0 < N) (key : CoordPath N)
    (hfits : (L.descend [] key.coords).2 = true) : ∃ slot m', locateOrCreate key m = .ok slot m' := by
  have hspec : Ensures (locateOrCreate key) m (fun _ _ => True) fun _ _ => False := by
    apply (locateOrCreate_descends treeAt_descends h hN key).mono
    · exact fun _ _ _ => trivial
    · intro e m' he
      cases he with
      | inl hfull => simp [hfits] at hfull
      | inr hspared => exact impossible hσ hspared
  obtain ⟨slot, m', hx, -⟩ := hspec.exists_ok
  exact ⟨slot, m', hx⟩

/-- On an empty store of depth two the path `1, 2` needs a node, which is made. -/
theorem resolves_agree_ideal :
    ∃ (strategy : TreeStrategy 2) (slot : Slot) (m' : Mount 2 IdealOrigin),
      (TreeStrategy.new 16 : Except (Stop BindingError) (TreeStrategy 2)) = .ok strategy ∧
      locateOrCreate ⟨[1, 2], rfl⟩ ⟨strategy, ⟨[]⟩⟩ = .ok slot m' ∧
      ResolvesAlike ⟨strategy, ⟨[]⟩⟩ ⟨[1, 2], rfl⟩ slot m' ∧
      ∀ later m₁, Uses 16 (.found slot, m') (later, m₁) →
        ∀ other slot' m₂, other ≠ ⟨[1, 2], rfl⟩ → locateOrCreate other m₁ = .ok slot' m₂ →
          slot'.leafSlotOffset ≠ slot.leafSlotOffset := by
  obtain ⟨strategy, hnew, hall⟩ :=
    resolves_agree (N := 2) IdealOrigin.neverFails (o := ⟨[]⟩) rfl ⟨16, by decide⟩
  have hfields : freshFields 2 16 = strategy := by
    rw [new_fields (by decide)] at hnew
    exact Except.ok.inj hnew
  subst hfields
  have hfresh := (@fresh_holds 2 IdealOrigin _ ⟨[]⟩ rfl Nat.two_pos 16 (by decide) (by decide)
    false).1.mount
  obtain ⟨slot, m', hx⟩ := created_ok IdealOrigin.neverFails hfresh.treeAt Nat.two_pos
    ⟨[1, 2], rfl⟩ (by decide)
  obtain ⟨halike, hlater⟩ := hall .idle _ .refl _ slot m' hx
  exact ⟨_, slot, m', hnew, hx, halike, hlater rfl⟩

end Chton.ResolveAgreement
