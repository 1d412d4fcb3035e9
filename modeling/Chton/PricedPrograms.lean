import Chton.OutcomePrograms
import Mathlib.Algebra.Order.Monoid.Canonical.Defs

/-!
# What a program spends

A meter reads off a state what has been spent so far, in any ordered monoid. A program has a
price if it spends no more than that from any state of a kind that it does not leave, whether
it returns or fails. Prices add up along a program.
-/

namespace Chton.PricedPrograms
open OutcomePrograms

variable {ε ε' σ τ α β C : Type} [AddCommMonoid C] [PartialOrder C]

/-- A reading, and the states for which prices are given. -/
structure Meter (σ C : Type) where
  spent : σ → C
  sound : σ → Prop

/-- At most `c` is spent on the way, and the state stays sound. -/
structure Meter.Within (M : Meter σ C) (c : C) (s s' : σ) : Prop where
  sound : M.sound s'
  spent : M.spent s' ≤ M.spent s + c

/-- Whatever the outcome, at most `c` is spent; what is returned satisfies `Q`. -/
def Yields (M : Meter σ C) (x : EStateM ε σ α) (Q : α → Prop) (c : C) : Prop :=
  ∀ s, M.sound s → Ensures x s (fun a s' => Q a ∧ M.Within c s s') fun _ s' => M.Within c s s'

abbrev Costs (M : Meter σ C) (x : EStateM ε σ α) (c : C) : Prop := Yields M x (fun _ => True) c

variable {M : Meter σ C} {x y : EStateM ε σ α} {Q : α → Prop} {c d : C} {s s' s'' : σ}

theorem Meter.Within.free (h : M.sound s') (heq : M.spent s' = M.spent s) : M.Within 0 s s' :=
  ⟨h, by rw [heq, add_zero]⟩

theorem Meter.Within.refl (h : M.sound s) : M.Within 0 s s := .free h rfl

/-- A state that has been read is sound. -/
theorem Yields.get : Yields M (MonadState.get : EStateM ε σ σ) M.sound 0 :=
  fun _ hs => ensures_get.mpr ⟨hs, .refl hs⟩

theorem Costs.modify {f : σ → σ} (hf : ∀ s, M.sound s → M.sound (f s) ∧ M.spent (f s) = M.spent s) :
    Costs M (modify f : EStateM ε σ PUnit) 0 :=
  fun s hs => ensures_modify.mpr ⟨trivial, .free (hf s hs).1 (hf s hs).2⟩

theorem Yields.ite {p : Prop} [Decidable p] (hx : p → Yields M x Q c) (hy : ¬ p → Yields M y Q c) :
    Yields M (if p then x else y) Q c := by
  split
  · exact hx ‹_›
  · exact hy ‹_›

/-- A program on a component costs what it costs there. -/
theorem Yields.focus {M' : Meter τ C} {proj : τ → σ} {put : σ → τ → τ} {conv : ε → ε'}
    (hx : Yields M x Q c) (hproj : ∀ t, M'.sound t → M.sound (proj t))
    (hput : ∀ s t, M.sound s → M'.sound t → M'.sound (put s t))
    (hspent : ∀ t, M'.spent t = M.spent (proj t)) (hspent' : ∀ s t, M'.spent (put s t) = M.spent s) :
    Yields M' (OutcomePrograms.focus proj put conv x) Q c := by
  intro t ht
  have hwithin {s' : σ} (h : M.Within c (proj t) s') : M'.Within c t (put s' t) := by
    refine ⟨hput s' t h.sound ht, ?_⟩
    rw [hspent', hspent]
    exact h.spent
  apply ensures_focus.mpr
  exact (hx _ (hproj t ht)).mono (fun _ _ h => ⟨h.1, hwithin h.2⟩) fun _ _ h => hwithin h

variable [CanonicallyOrderedAdd C]

theorem Meter.Within.mono (h : M.Within c s s') (hle : c ≤ d) : M.Within d s s' :=
  ⟨h.sound, h.spent.trans (add_le_add_right hle _)⟩

theorem Meter.Within.trans (h : M.Within c s s') (h' : M.Within d s' s'') :
    M.Within (c + d) s s'' := by
  refine ⟨h'.sound, h'.spent.trans ?_⟩
  rw [← add_assoc]
  exact add_le_add_left h.spent d

theorem Yields.mono (h : Yields M x Q c) (hle : c ≤ d) : Yields M x Q d := fun s hs =>
  (h s hs).mono (fun _ _ h => ⟨h.1, h.2.mono hle⟩) fun _ _ h => h.mono hle

theorem Yields.pure {a : α} (ha : Q a) : Yields M (Pure.pure a : EStateM ε σ α) Q c :=
  fun _ hs => ensures_pure.mpr ⟨ha, Meter.Within.mono (.refl hs) zero_le⟩

theorem Yields.throw (e : ε) : Yields M (MonadExcept.throw e : EStateM ε σ α) Q c :=
  fun _ hs => ensures_throw.mpr (Meter.Within.mono (.refl hs) zero_le)

/-- Prices add up. -/
theorem Yields.bind {k : α → EStateM ε σ β} {R : β → Prop} (hx : Yields M x Q c)
    (hk : ∀ a, Q a → Yields M (k a) R d) : Yields M (x >>= k) R (c + d) := by
  intro s hs
  apply (hx s hs).bind
  · intro a s' ha
    refine (hk a ha.1 s' ha.2.sound).mono ?_ ?_
    · exact fun _ _ h => ⟨h.1, ha.2.trans h.2⟩
    · exact fun _ _ h => ha.2.trans h
  · exact fun _ _ h => h.mono le_self_add

theorem Yields.bindFree {k : α → EStateM ε σ β} {R : β → Prop} (hx : Yields M x Q 0)
    (hk : ∀ a, Q a → Yields M (k a) R d) : Yields M (x >>= k) R d := by
  have h := hx.bind hk
  rwa [zero_add] at h

theorem Yields.thenFree {k : α → EStateM ε σ β} {R : β → Prop} (hx : Yields M x Q c)
    (hk : ∀ a, Q a → Yields M (k a) R 0) : Yields M (x >>= k) R c := by
  have h := hx.bind hk
  rwa [add_zero] at h

end Chton.PricedPrograms
