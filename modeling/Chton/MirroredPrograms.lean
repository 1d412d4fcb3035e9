import Chton.CallRuns

/-!
# Programs that mirror each other

Two programs run side by side on related states. The first one may leave the area in which
its states say anything about the second machine: it then fails in a state that is marked as
overrun. As long as that does not happen, the second program returns what the first one
returns and leaves related states behind. Sequences, loops and components are mirrored if
their parts are, and runs are if their calls are.
-/

namespace Chton.MirroredPrograms
open OutcomePrograms CallRuns

variable {ε ε' α β κ ρ σ τ σ' τ' : Type}

structure Mirror (σ τ : Type) where
  related : σ → τ → Prop
  overrun : σ → Prop

/-- From the two states, `y` does what `x` does, or `x` fails in an overrun state. -/
def MirrorsAt (M : Mirror σ τ) (x : EStateM ε σ α) (y : EStateM ε τ α) (s : σ) (t : τ) : Prop :=
  (∃ e s', x s = .error e s' ∧ M.overrun s') ∨
    (answer x s).1 = (answer y t).1 ∧ M.related (answer x s).2 (answer y t).2

def Mirrors (M : Mirror σ τ) (x : EStateM ε σ α) (y : EStateM ε τ α) : Prop :=
  ∀ s t, M.related s t → MirrorsAt M x y s t

variable {M : Mirror σ τ} {M' : Mirror σ' τ'} {x : EStateM ε σ α} {y : EStateM ε τ α} {s s' : σ}
  {t t' : τ}

theorem mirrorsAt_ok {a : α} (hx : x s = .ok a s') (hy : y t = .ok a t') (h : M.related s' t') :
    MirrorsAt M x y s t := by
  apply Or.inr
  rw [answer_of_ok hx, answer_of_ok hy]
  exact ⟨rfl, h⟩

theorem mirrorsAt_error {e : ε} (hx : x s = .error e s') (hy : y t = .error e t')
    (h : M.related s' t') : MirrorsAt M x y s t := by
  apply Or.inr
  rw [answer_of_error hx, answer_of_error hy]
  exact ⟨rfl, h⟩

/-- The three ways in which two programs mirror each other. -/
theorem MirrorsAt.cases (h : MirrorsAt M x y s t) :
    (∃ e s', x s = .error e s' ∧ M.overrun s') ∨
      (∃ a s' t', x s = .ok a s' ∧ y t = .ok a t' ∧ M.related s' t') ∨
      ∃ e s' t', x s = .error e s' ∧ y t = .error e t' ∧ M.related s' t' := by
  apply h.imp_right
  intro h
  obtain ⟨houtcome, hrelated⟩ := h
  cases hx : x s with
  | ok a s' =>
    rw [answer_of_ok hx] at houtcome hrelated
    cases hy : y t with
    | ok a' t' =>
      rw [answer_of_ok hy] at houtcome hrelated
      cases houtcome
      exact .inl ⟨a, s', t', rfl, rfl, hrelated⟩
    | error e t' =>
      rw [answer_of_error hy] at houtcome
      cases houtcome
  | error e s' =>
    rw [answer_of_error hx] at houtcome hrelated
    cases hy : y t with
    | ok a t' =>
      rw [answer_of_ok hy] at houtcome
      cases houtcome
    | error e' t' =>
      rw [answer_of_error hy] at houtcome hrelated
      cases houtcome
      exact .inr ⟨e, s', t', rfl, rfl, hrelated⟩

theorem MirrorsAt.pure (h : M.related s t) (a : α) :
    MirrorsAt M (Pure.pure a : EStateM ε σ α) (Pure.pure a) s t := mirrorsAt_ok rfl rfl h

theorem Mirrors.pure (a : α) : Mirrors M (Pure.pure a : EStateM ε σ α) (Pure.pure a) :=
  fun _ _ h => .pure h a

theorem Mirrors.throw (e : ε) :
    Mirrors M (MonadExcept.throw e : EStateM ε σ α) (MonadExcept.throw e) :=
  fun _ _ h => mirrorsAt_error rfl rfl h

/-- The rest of a program runs from the states that its first part leaves. -/
theorem MirrorsAt.bind {f : α → EStateM ε σ β} {g : α → EStateM ε τ β}
    (hx : MirrorsAt M x y s t)
    (hf : ∀ a s' t', M.related s' t' → MirrorsAt M (f a) (g a) s' t') :
    MirrorsAt M (x >>= f) (y >>= g) s t := by
  rcases hx.cases with ⟨e, s', hxs, hover⟩ | ⟨a, s', t', hxs, hyt, h⟩ | ⟨e, s', t', hxs, hyt, h⟩
  · exact .inl ⟨e, s', by rw [bind_apply, hxs], hover⟩
  · have hrest := hf a s' t' h
    rw [MirrorsAt, answer, answer, bind_apply, bind_apply, hxs, hyt]
    exact hrest
  · exact mirrorsAt_error (by rw [bind_apply, hxs]) (by rw [bind_apply, hyt]) h

theorem Mirrors.bind {f : α → EStateM ε σ β} {g : α → EStateM ε τ β} (hx : Mirrors M x y)
    (hf : ∀ a, Mirrors M (f a) (g a)) : Mirrors M (x >>= f) (y >>= g) :=
  fun s t h => (hx s t h).bind fun a s' t' h' => hf a s' t' h'

/-- The same where something is known of what the first part of the first program does. -/
theorem MirrorsAt.bindKnown {f : α → EStateM ε σ β} {g : α → EStateM ε τ β} {Q : α → σ → Prop}
    {E : ε → σ → Prop} (hx : MirrorsAt M x y s t) (hknown : Ensures x s Q E)
    (hf : ∀ a s' t', Q a s' → M.related s' t' → MirrorsAt M (f a) (g a) s' t') :
    MirrorsAt M (x >>= f) (y >>= g) s t := by
  rcases hx.cases with ⟨e, s', hxs, hover⟩ | ⟨a, s', t', hxs, hyt, h⟩ | ⟨e, s', t', hxs, hyt, h⟩
  · exact .inl ⟨e, s', by rw [bind_apply, hxs], hover⟩
  · have hrest := hf a s' t' (hknown.ok hxs) h
    rw [MirrorsAt, answer, answer, bind_apply, bind_apply, hxs, hyt]
    exact hrest
  · exact mirrorsAt_error (by rw [bind_apply, hxs]) (by rw [bind_apply, hyt]) h

/-- What the second program ensures, the first one ensures as well when it returns. -/
theorem MirrorsAt.ensures {Q : α → τ → Prop} {E : ε → τ → Prop} (hx : MirrorsAt M x y s t)
    (h : Ensures y t Q E) :
    Ensures x s (fun a s' => ∃ t', M.related s' t' ∧ Q a t') fun _ _ => True := by
  constructor
  · intro a s' hxs
    rcases hx.cases with ⟨_, _, hf, -⟩ | ⟨_, s₁, t', hx', hyt, hrelated⟩ | ⟨_, _, _, hf, -, -⟩
    · cases hxs.symm.trans hf
    · cases hxs.symm.trans hx'
      exact ⟨t', hrelated, h.ok hyt⟩
    · cases hxs.symm.trans hf
  · exact fun _ => trivial

theorem mirrors_get_bind {f : σ → EStateM ε σ β} {g : τ → EStateM ε τ β}
    (h : ∀ s t, M.related s t → MirrorsAt M (f s) (g t) s t) :
    Mirrors M (MonadState.get >>= f) (MonadState.get >>= g) := h

theorem mirrorsAt_set (h : M.related s' t') :
    MirrorsAt M (set s' : EStateM ε σ PUnit) (set t') s t := mirrorsAt_ok rfl rfl h

theorem mirrors_modify {f : σ → σ} {g : τ → τ}
    (h : ∀ s t, M.related s t → M.related (f s) (g t)) :
    Mirrors M (modify f : EStateM ε σ PUnit) (modify g) :=
  fun s t hst => mirrorsAt_ok rfl rfl (h s t hst)

theorem MirrorsAt.ite {c : Prop} [Decidable c] {x' : EStateM ε σ α} {y' : EStateM ε τ α}
    (hx : c → MirrorsAt M x y s t) (hy : ¬c → MirrorsAt M x' y' s t) :
    MirrorsAt M (if c then x else x') (if c then y else y') s t := by
  by_cases hc : c
  · rw [if_pos hc, if_pos hc]
    exact hx hc
  · rw [if_neg hc, if_neg hc]
    exact hy hc

theorem Mirrors.ite {c : Prop} [Decidable c] {x' : EStateM ε σ α} {y' : EStateM ε τ α}
    (hx : Mirrors M x y) (hy : Mirrors M x' y') :
    Mirrors M (if c then x else x') (if c then y else y') :=
  fun s t h => .ite (fun _ => hx s t h) fun _ => hy s t h

theorem Mirrors.foldlM {f : β → α → EStateM ε σ β} {g : β → α → EStateM ε τ β}
    (hf : ∀ b a, Mirrors M (f b a) (g b a)) (as : List α) (b : β) :
    Mirrors M (as.foldlM f b) (as.foldlM g b) := by
  induction as generalizing b with
  | nil => exact Mirrors.pure b
  | cons a as ih =>
    rw [List.foldlM_cons, List.foldlM_cons]
    exact (hf b a).bind ih

/-- Programs on a component of larger states. -/
theorem Mirrors.focus {proj : σ' → σ} {put : σ → σ' → σ'} {proj' : τ' → τ} {put' : τ → τ' → τ'}
    {conv : ε → ε'} (hx : Mirrors M x y)
    (hproj : ∀ s t, M'.related s t → M.related (proj s) (proj' t))
    (hput : ∀ s t u v, M'.related s t → M.related u v → M'.related (put u s) (put' v t))
    (hover : ∀ s u, M.overrun u → M'.overrun (put u s)) :
    Mirrors M' (focus proj put conv x) (focus proj' put' conv y) := by
  intro s t h
  obtain ⟨e, u, hxs, hu⟩ | ⟨a, u, v, hxs, hyt, huv⟩ | ⟨e, u, v, hxs, hyt, huv⟩ :=
    (hx _ _ (hproj s t h)).cases
  · exact .inl ⟨conv e, put u s, by rw [OutcomePrograms.focus, hxs], hover s u hu⟩
  · exact mirrorsAt_ok (by rw [OutcomePrograms.focus, hxs]) (by rw [OutcomePrograms.focus, hyt])
      (hput s t u v h huv)
  · exact mirrorsAt_error (by rw [OutcomePrograms.focus, hxs])
      (by rw [OutcomePrograms.focus, hyt]) (hput s t u v h huv)

/-- Machines whose calls mirror each other run alike up to the first overrun state. -/
theorem run_mirrors {x : κ → EStateM ε σ ρ} {y : κ → EStateM ε τ ρ}
    (hx : ∀ c, Mirrors M (x c) (y c)) {cs : List κ} (h : M.related s t)
    (hover : ∀ ds, ds <+: cs → ¬M.overrun (run (fun c => answer (x c)) ds s).2) :
    (run (fun c => answer (x c)) cs s).1 = (run (fun c => answer (y c)) cs t).1 ∧
      M.related (run (fun c => answer (x c)) cs s).2 (run (fun c => answer (y c)) cs t).2 := by
  induction cs generalizing s t with
  | nil => exact ⟨rfl, h⟩
  | cons c cs ih =>
    have hfirst := hover [c] (by simp)
    rcases hx c s t h with ⟨e, s', hxs, hs'⟩ | ⟨hreply, hrelated⟩
    · rw [run_cons, answer_of_error hxs] at hfirst
      exact absurd hs' hfirst
    · obtain ⟨hreplies, hfinal⟩ := ih hrelated fun ds hds => by
        have hbegins := hover (c :: ds) (by simpa using hds)
        rwa [run_cons] at hbegins
      rw [run_cons, run_cons, hreply, hreplies]
      exact ⟨rfl, hfinal⟩

end Chton.MirroredPrograms
