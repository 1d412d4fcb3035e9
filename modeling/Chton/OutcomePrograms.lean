import Mathlib.Data.List.Basic

/-!
# Programs with a state, a result or a failure

An `EStateM` program runs from a state and ends in a result or a failure, and it
keeps the state it reached in both cases. `Ensures` states what every outcome of
one run satisfies, with one postcondition for results and one for failures, so a
failure that leaves a half-finished state behind is described as precisely as a
success. The rules below follow the program text: one for each way of building
a program, one for loops, and one for a program that runs on a component of a
larger state.
-/

namespace Chton.OutcomePrograms

variable {ε ε' σ τ α β γ : Type}

/-- Every outcome of running `x` from `s`: results satisfy `Q`, failures `E`. -/
structure Ensures (x : EStateM ε σ α) (s : σ) (Q : α → σ → Prop) (E : ε → σ → Prop) : Prop where
  ok : ∀ {a s'}, x s = .ok a s' → Q a s'
  error : ∀ {e s'}, x s = .error e s' → E e s'

variable {Q Q' : α → σ → Prop} {E E' : ε → σ → Prop} {s : σ}

theorem ensures_of_ok {x : EStateM ε σ α} {a : α} {s' : σ} (hx : x s = .ok a s') :
    Ensures x s Q E ↔ Q a s' := by
  constructor
  · exact fun h => h.ok hx
  · intro h
    refine ⟨fun h' => ?_, fun h' => ?_⟩
    · rw [hx] at h'
      cases h'
      exact h
    · rw [hx] at h'
      cases h'

theorem ensures_of_error {x : EStateM ε σ α} {e : ε} {s' : σ} (hx : x s = .error e s') :
    Ensures x s Q E ↔ E e s' := by
  constructor
  · exact fun h => h.error hx
  · intro h
    refine ⟨fun h' => ?_, fun h' => ?_⟩
    · rw [hx] at h'
      cases h'
    · rw [hx] at h'
      cases h'
      exact h

/-- A program none of whose failures is possible returns a result. -/
theorem Ensures.exists_ok {x : EStateM ε σ α} (h : Ensures x s Q fun _ _ => False) :
    ∃ a s', x s = .ok a s' ∧ Q a s' := by
  cases hx : x s with
  | ok a s' => exact ⟨a, s', rfl, h.ok hx⟩
  | error e s' => exact (h.error hx).elim

theorem Ensures.mono {x : EStateM ε σ α} (h : Ensures x s Q E)
    (hQ : ∀ a s', Q a s' → Q' a s') (hE : ∀ e s', E e s' → E' e s') :
    Ensures x s Q' E' :=
  ⟨fun hx => hQ _ _ (h.ok hx), fun hx => hE _ _ (h.error hx)⟩

theorem Ensures.and {x : EStateM ε σ α} (h : Ensures x s Q E) (h' : Ensures x s Q' E') :
    Ensures x s (fun a s' => Q a s' ∧ Q' a s') (fun e s' => E e s' ∧ E' e s') :=
  ⟨fun hx => ⟨h.ok hx, h'.ok hx⟩, fun hx => ⟨h.error hx, h'.error hx⟩⟩

@[simp] theorem ensures_pure {a : α} : Ensures (pure a) s Q E ↔ Q a s := ensures_of_ok rfl

@[simp] theorem ensures_throw {e : ε} :
    Ensures (throw e : EStateM ε σ α) s Q E ↔ E e s := ensures_of_error rfl

@[simp] theorem ensures_get {Q : σ → σ → Prop} :
    Ensures (get : EStateM ε σ σ) s Q E ↔ Q s s := ensures_of_ok rfl

@[simp] theorem ensures_set {Q : PUnit → σ → Prop} {t : σ} :
    Ensures (set t : EStateM ε σ PUnit) s Q E ↔ Q ⟨⟩ t := ensures_of_ok rfl

@[simp] theorem ensures_modify {Q : PUnit → σ → Prop} {f : σ → σ} :
    Ensures (modify f : EStateM ε σ PUnit) s Q E ↔ Q ⟨⟩ (f s) := ensures_of_ok rfl

theorem bind_apply (x : EStateM ε σ α) (f : α → EStateM ε σ β) (s : σ) :
    (x >>= f) s = match x s with
      | .ok a s' => f a s'
      | .error e s' => .error e s' := rfl

theorem throw_bind (e : ε) (f : α → EStateM ε σ β) : (throw e : EStateM ε σ α) >>= f = throw e := rfl

theorem ite_bind {c : Prop} [Decidable c] (x y : EStateM ε σ α) (f : α → EStateM ε σ β) :
    (if c then x else y) >>= f = if c then x >>= f else y >>= f := by
  split <;> rfl

theorem ensures_bind {x : EStateM ε σ α} {f : α → EStateM ε σ β} {Q : β → σ → Prop} :
    Ensures (x >>= f) s Q E ↔ Ensures x s (fun a s' => Ensures (f a) s' Q E) E := by
  cases hx : x s with
  | ok a s' =>
    rw [ensures_of_ok hx]
    have hbind : (x >>= f) s = f a s' := by rw [bind_apply, hx]
    exact ⟨fun h => ⟨fun h' => h.ok (hbind.trans h'), fun h' => h.error (hbind.trans h')⟩,
      fun h => ⟨fun h' => h.ok (hbind.symm.trans h'), fun h' => h.error (hbind.symm.trans h')⟩⟩
  | error e s' =>
    rw [ensures_of_error hx, ensures_of_error (by rw [bind_apply, hx])]

/-- The sequencing rule with the specification of the first part given. -/
theorem Ensures.bind {x : EStateM ε σ α} {f : α → EStateM ε σ β} {R : β → σ → Prop}
    (hx : Ensures x s Q E') (hf : ∀ a s', Q a s' → Ensures (f a) s' R E)
    (hE : ∀ e s', E' e s' → E e s') : Ensures (x >>= f) s R E :=
  ensures_bind.mpr (hx.mono hf hE)

/-- The sequencing rule for two parts that fail in the same way. -/
theorem Ensures.andThen {x : EStateM ε σ α} {f : α → EStateM ε σ β} {R : β → σ → Prop}
    (hx : Ensures x s Q E) (hf : ∀ a s', Q a s' → Ensures (f a) s' R E) :
    Ensures (x >>= f) s R E :=
  hx.bind hf fun _ _ he => he

theorem ensures_map {x : EStateM ε σ α} {f : α → β} {Q : β → σ → Prop} :
    Ensures (f <$> x) s Q E ↔ Ensures x s (fun a s' => Q (f a) s') E := by
  rw [map_eq_pure_bind, ensures_bind]
  constructor
  · exact fun h => h.mono (fun _ _ hq => ensures_pure.mp hq) fun _ _ he => he
  · exact fun h => h.mono (fun _ _ hq => ensures_pure.mpr hq) fun _ _ he => he

theorem ensures_ite {c : Prop} [Decidable c] {x y : EStateM ε σ α}
    (ht : c → Ensures x s Q E) (hf : ¬c → Ensures y s Q E) :
    Ensures (if c then x else y) s Q E := by
  split
  · exact ht ‹_›
  · exact hf ‹_›

/-- A handler goes on from the state that the failure left. -/
theorem ensures_tryCatch {x : EStateM ε σ α} {handler : ε → EStateM ε σ α} :
    Ensures (tryCatch x handler) s Q E ↔
      Ensures x s Q fun e s' => Ensures (handler e) s' Q E := by
  cases hx : x s with
  | ok a s' =>
    have htry : (tryCatch x handler : EStateM ε σ α) s = .ok a s' := by
      change EStateM.tryCatch x handler s = _
      rw [EStateM.tryCatch, hx]
    rw [ensures_of_ok hx, ensures_of_ok htry]
  | error e s' =>
    have htry : (tryCatch x handler : EStateM ε σ α) s = handler e s' := by
      change EStateM.tryCatch x handler s = _
      rw [EStateM.tryCatch, hx]
      rfl
    rw [ensures_of_error hx]
    exact ⟨fun h => ⟨fun h' => h.ok (htry.trans h'), fun h' => h.error (htry.trans h')⟩,
      fun h => ⟨fun h' => h.ok (htry.symm.trans h'), fun h' => h.error (htry.symm.trans h')⟩⟩

/-- The loop rule: an invariant that names the part of the list already visited. -/
theorem Ensures.foldlM {f : β → α → EStateM ε σ β} (I : List α → β → σ → Prop)
    {xs : List α} {b : β} (h0 : I [] b s)
    (hstep : ∀ pre a post b s, xs = pre ++ a :: post → I pre b s →
      Ensures (f b a) s (fun b' s' => I (pre ++ [a]) b' s') E) :
    Ensures (xs.foldlM f b) s (fun b' s' => I xs b' s') E := by
  suffices h : ∀ post pre b s, xs = pre ++ post → I pre b s →
      Ensures (post.foldlM f b) s (fun b' s' => I xs b' s') E from h xs [] b s rfl h0
  intro post
  induction post with
  | nil =>
    intro pre b s hxs hI
    simpa [hxs] using hI
  | cons a post ih =>
    intro pre b s hxs hI
    rw [List.foldlM_cons, ensures_bind]
    refine (hstep pre a post b s hxs hI).mono (fun b' s' hI' => ?_) (fun _ _ h => h)
    exact ih (pre ++ [a]) b' s' (by simpa using hxs) hI'

/-- Run a program on a component of a larger state. -/
def focus (proj : τ → σ) (put : σ → τ → τ) (conv : ε → ε') (x : EStateM ε σ α) :
    EStateM ε' τ α := fun t =>
  match x (proj t) with
  | .ok a s => .ok a (put s t)
  | .error e s => .error (conv e) (put s t)

theorem focus_bind {proj : τ → σ} {put : σ → τ → τ} {conv : ε → ε'}
    (hproj : ∀ s t, proj (put s t) = s) (hput : ∀ s s' t, put s (put s' t) = put s t)
    (x : EStateM ε σ α) (f : α → EStateM ε σ β) :
    focus proj put conv (x >>= f) =
      focus proj put conv x >>= fun a => focus proj put conv (f a) := by
  funext t
  simp only [focus, bind_apply]
  cases x (proj t) with
  | ok a s =>
    simp only [hproj]
    cases f a s <;> simp only [hput]
  | error e s => rfl

theorem ensures_focus {proj : τ → σ} {put : σ → τ → τ} {conv : ε → ε'}
    {x : EStateM ε σ α} {t : τ} {Q : α → τ → Prop} {E : ε' → τ → Prop} :
    Ensures (focus proj put conv x) t Q E ↔
      Ensures x (proj t) (fun a s => Q a (put s t)) (fun e s => E (conv e) (put s t)) := by
  cases hx : x (proj t) with
  | ok a s => rw [ensures_of_ok hx, ensures_of_ok (by rw [focus, hx])]
  | error e s => rw [ensures_of_error hx, ensures_of_error (by rw [focus, hx])]

variable {δ : Type} {g : σ → δ}

/-- Whatever the outcome, the program leaves `g` as it was. -/
def Keeps (g : σ → δ) (x : EStateM ε σ α) : Prop :=
  ∀ s, Ensures x s (fun _ s' => g s' = g s) fun _ s' => g s' = g s

theorem Keeps.pure (a : α) : Keeps g (Pure.pure a : EStateM ε σ α) := fun _ => ensures_pure.mpr rfl

theorem Keeps.throw (e : ε) : Keeps g (MonadExcept.throw e : EStateM ε σ α) :=
  fun _ => ensures_throw.mpr rfl

theorem Keeps.get : Keeps g (MonadState.get : EStateM ε σ σ) := fun _ => ensures_get.mpr rfl

theorem keeps_modify {h : σ → σ} (hg : ∀ s, g (h s) = g s) :
    Keeps g (modify h : EStateM ε σ PUnit) := fun s => ensures_modify.mpr (hg s)

theorem Keeps.comp {x : EStateM ε σ α} (hx : Keeps g x) (h : δ → ε') : Keeps (fun s => h (g s)) x :=
  fun s => (hx s).mono (fun _ _ hs => congrArg h hs) fun _ _ hs => congrArg h hs

theorem Keeps.bind {x : EStateM ε σ α} {k : α → EStateM ε σ β} (hx : Keeps g x)
    (hk : ∀ a, Keeps g (k a)) : Keeps g (x >>= k) := by
  intro s
  apply (hx s).andThen
  intro a s' hs'
  exact (hk a s').mono (fun _ _ h => h.trans hs') fun _ _ h => h.trans hs'

/-- The state that was just read may be used to say what stays. -/
theorem keeps_get_bind {k : σ → EStateM ε σ β}
    (hk : ∀ s, Ensures (k s) s (fun _ s' => g s' = g s) fun _ s' => g s' = g s) :
    Keeps g (MonadState.get >>= k) := by
  intro s
  rw [ensures_bind, ensures_get]
  exact hk s

theorem Keeps.ite {c : Prop} [Decidable c] {x y : EStateM ε σ α} (hx : Keeps g x)
    (hy : Keeps g y) : Keeps g (if c then x else y) := by
  split
  · exact hx
  · exact hy

theorem Keeps.foldlM {k : β → α → EStateM ε σ β} (hk : ∀ b a, Keeps g (k b a)) (xs : List α)
    (b : β) : Keeps g (xs.foldlM k b) := by
  induction xs generalizing b with
  | nil => exact Keeps.pure b
  | cons a xs ih =>
    rw [List.foldlM_cons]
    exact (hk b a).bind ih

theorem Keeps.focus {proj : τ → σ} {put : σ → τ → τ} {conv : ε → ε'} {x : EStateM ε σ α}
    {g' : τ → δ} (hx : Keeps g x) (hget : ∀ t, g' t = g (proj t))
    (hput : ∀ s t, g' (put s t) = g s) : Keeps g' (focus proj put conv x) := by
  intro t
  rw [ensures_focus]
  refine (hx (proj t)).mono ?_ ?_
  · intro _ s hs
    rw [hput, hget, hs]
  · intro _ s hs
    rw [hput, hget, hs]

variable {I : σ → Prop}

def Preserves (I : σ → Prop) (x : EStateM ε σ α) : Prop :=
  ∀ s, I s → Ensures x s (fun _ s' => I s') fun _ s' => I s'

theorem Preserves.pure (a : α) : Preserves I (Pure.pure a : EStateM ε σ α) :=
  fun _ h => ensures_pure.mpr h

theorem Preserves.throw (e : ε) : Preserves I (MonadExcept.throw e : EStateM ε σ α) :=
  fun _ h => ensures_throw.mpr h

theorem Preserves.get : Preserves I (MonadState.get : EStateM ε σ σ) :=
  fun _ h => ensures_get.mpr h

theorem Preserves.bind {x : EStateM ε σ α} {k : α → EStateM ε σ β} (hx : Preserves I x)
    (hk : ∀ a, Preserves I (k a)) : Preserves I (x >>= k) := by
  intro s hs
  apply (hx s hs).andThen
  exact fun a s' hs' => hk a s' hs'

theorem Preserves.map {x : EStateM ε σ α} (hx : Preserves I x) (f : α → β) :
    Preserves I (f <$> x) := fun s hs => ensures_map.mpr (hx s hs)

/-- The state may be a component that makes up the whole. -/
theorem Preserves.focus {x : EStateM ε σ α} (hx : Preserves I x) (conv : ε → ε') :
    Preserves I (OutcomePrograms.focus id (fun s _ => s) conv x) := by
  intro s hs
  rw [ensures_focus]
  exact hx s hs

theorem Preserves.mapM {k : α → EStateM ε σ β} (hk : ∀ a, Preserves I (k a)) (xs : List α) :
    Preserves I (xs.mapM k) := by
  induction xs with
  | nil => exact Preserves.pure []
  | cons a xs ih =>
    rw [List.mapM_cons]
    exact (hk a).bind fun b => ih.bind fun bs => Preserves.pure (b :: bs)

variable {P : ε → Prop} {P' : ε' → Prop}

/-- From every state, the failures of the program are ones that `P` allows. -/
def FailsWith (P : ε → Prop) (x : EStateM ε σ α) : Prop :=
  ∀ s, Ensures x s (fun _ _ => True) fun e _ => P e

theorem FailsWith.pure (a : α) : FailsWith P (Pure.pure a : EStateM ε σ α) :=
  fun _ => ensures_pure.mpr trivial

theorem FailsWith.throw {e : ε} (h : P e) :
    FailsWith P (MonadExcept.throw e : EStateM ε σ α) := fun _ => ensures_throw.mpr h

theorem FailsWith.get : FailsWith P (MonadState.get : EStateM ε σ σ) :=
  fun _ => ensures_get.mpr trivial

theorem FailsWith.set (s : σ) : FailsWith P (MonadStateOf.set s : EStateM ε σ PUnit) :=
  fun _ => ensures_set.mpr trivial

theorem FailsWith.modify (f : σ → σ) : FailsWith P (modify f : EStateM ε σ PUnit) :=
  fun _ => ensures_modify.mpr trivial

theorem FailsWith.bind {x : EStateM ε σ α} {k : α → EStateM ε σ β} (hx : FailsWith P x)
    (hk : ∀ a, FailsWith P (k a)) : FailsWith P (x >>= k) := by
  intro s
  apply (hx s).andThen
  exact fun a s' _ => hk a s'

theorem FailsWith.ite {c : Prop} [Decidable c] {x y : EStateM ε σ α} (hx : FailsWith P x)
    (hy : FailsWith P y) : FailsWith P (if c then x else y) := by
  split
  · exact hx
  · exact hy

theorem FailsWith.foldlM {k : β → α → EStateM ε σ β} (hk : ∀ b a, FailsWith P (k b a))
    (xs : List α) (b : β) : FailsWith P (xs.foldlM k b) := by
  induction xs generalizing b with
  | nil => exact FailsWith.pure b
  | cons a xs ih =>
    rw [List.foldlM_cons]
    exact (hk b a).bind ih

theorem FailsWith.focus {proj : τ → σ} {put : σ → τ → τ} {conv : ε → ε'} {x : EStateM ε σ α}
    (hx : FailsWith P x) (hconv : ∀ e, P e → P' (conv e)) :
    FailsWith P' (focus proj put conv x) := by
  intro t
  rw [ensures_focus]
  exact (hx (proj t)).mono (fun _ _ h => h) fun e _ he => hconv e he

end Chton.OutcomePrograms
