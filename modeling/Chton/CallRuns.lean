import Chton.OutcomePrograms
import Mathlib.Data.List.Zip
import Mathlib.Data.List.Induction

/-!
# Runs of calls on a machine

A machine answers calls one at a time; a run collects its replies. Two machines that
answer every call alike give the same replies in every run. The general rule also lets
the first machine take steps of which the second knows nothing, chosen by the call and
its reply: calls that were refused, or calls that only concern the first machine.
-/

namespace Chton.CallRuns
open OutcomePrograms

variable {ε κ κ' ρ σ τ α β : Type}

/-- The outcome of a program and the state it leaves behind. -/
def answer (x : EStateM ε σ α) (s : σ) : Except ε α × σ :=
  match x s with
  | .ok a s' => (.ok a, s')
  | .error e s' => (.error e, s')

theorem answer_of_ok {x : EStateM ε σ α} {s s' : σ} {a : α} (h : x s = .ok a s') :
    answer x s = (.ok a, s') := by
  rw [answer, h]

theorem answer_of_error {x : EStateM ε σ α} {s s' : σ} {e : ε} (h : x s = .error e s') :
    answer x s = (.error e, s') := by
  rw [answer, h]

/-- A specified program either returns or fails, as its postconditions say. -/
theorem answer_cases {x : EStateM ε σ α} {s : σ} {Q : α → σ → Prop} {E : ε → σ → Prop}
    (h : Ensures x s Q E) :
    (∃ a s', answer x s = (.ok a, s') ∧ Q a s') ∨ ∃ e s', answer x s = (.error e, s') ∧ E e s' := by
  cases hx : x s with
  | ok a s' => exact .inl ⟨a, s', answer_of_ok hx, h.ok hx⟩
  | error e s' => exact .inr ⟨e, s', answer_of_error hx, h.error hx⟩

theorem answer_ok {x : EStateM ε σ α} {s : σ} {Q : α → σ → Prop}
    (h : Ensures x s Q fun _ _ => False) : ∃ a s', answer x s = (.ok a, s') ∧ Q a s' := by
  obtain ⟨a, s', hx, hQ⟩ := h.exists_ok
  exact ⟨a, s', answer_of_ok hx, hQ⟩

/-- A program all of whose outcomes are foretold by `r`. -/
theorem answer_eq {x : EStateM ε σ α} {s : σ} {r : Except ε α} {I : σ → Prop}
    (h : Ensures x s (fun a s' => r = .ok a ∧ I s') fun e s' => r = .error e ∧ I s') :
    (answer x s).1 = r ∧ I (answer x s).2 := by
  rcases answer_cases h with ⟨a, s', hx, hr, hI⟩ | ⟨e, s', hx, hr, hI⟩
  · rw [hx, hr]
    exact ⟨rfl, hI⟩
  · rw [hx, hr]
    exact ⟨rfl, hI⟩

theorem answer_then {x : EStateM ε σ α} {s : σ} (f : α → β) :
    answer (x >>= fun a => pure (f a)) s = ((answer x s).1.map f, (answer x s).2) := by
  simp only [answer, bind, EStateM.bind]
  cases x s <;> rfl

theorem answer_bind {x : EStateM ε σ α} {g : α → EStateM ε σ β} {s s' : σ} {a : α}
    (h : answer x s = (.ok a, s')) : answer (x >>= g) s = answer (g a) s' := by
  cases hx : x s with
  | ok a' s'' =>
    rw [answer_of_ok hx] at h
    cases h
    rw [answer, bind_apply, hx]
    rfl
  | error e s'' =>
    rw [answer_of_error hx] at h
    cases h

theorem answer_bind_error {x : EStateM ε σ α} {g : α → EStateM ε σ β} {s s' : σ} {e : ε}
    (h : answer x s = (.error e, s')) : answer (x >>= g) s = (.error e, s') := by
  cases hx : x s with
  | ok a' s'' =>
    rw [answer_of_ok hx] at h
    cases h
  | error e' s'' =>
    rw [answer_of_error hx] at h
    cases h
    rw [answer, bind_apply, hx]

theorem ensures_answer {x : EStateM ε σ α} {s : σ} {I : σ → Prop} :
    Ensures x s (fun _ s' => I s') (fun _ s' => I s') ↔ I (answer x s).2 := by
  cases hx : x s with
  | ok a s' => rw [ensures_of_ok hx, answer_of_ok hx]
  | error e s' => rw [ensures_of_error hx, answer_of_error hx]

/-- The replies to a list of calls, and the state after the last one. -/
def run (step : κ → σ → ρ × σ) : List κ → σ → List ρ × σ
  | [], s => ([], s)
  | c :: cs, s => ((step c s).1 :: (run step cs (step c s).2).1, (run step cs (step c s).2).2)

variable {step : κ → σ → ρ × σ} {step' : κ' → τ → ρ × τ} {c : κ} {cs ds : List κ} {s : σ} {t : τ}

@[simp] theorem run_nil : run step [] s = ([], s) := rfl

@[simp] theorem run_cons : run step (c :: cs) s =
    ((step c s).1 :: (run step cs (step c s).2).1, (run step cs (step c s).2).2) := rfl

theorem run_append : run step (cs ++ ds) s =
    ((run step cs s).1 ++ (run step ds (run step cs s).2).1, (run step ds (run step cs s).2).2) := by
  induction cs generalizing s with
  | nil => simp
  | cons c cs ih => simp [ih]

@[simp] theorem length_replies : (run step cs s).1.length = cs.length := by
  induction cs generalizing s with
  | nil => rfl
  | cons c cs ih => simp [ih]

def Guarded (P : κ → σ → Prop) (step : κ → σ → ρ × σ) : List κ → σ → Prop
  | [], _ => True
  | c :: cs, s => P c s ∧ Guarded P step cs (step c s).2

theorem guarded_of_forall {P : κ → σ → Prop} (h : ∀ c ∈ cs, ∀ s, P c s) :
    Guarded P step cs s := by
  induction cs generalizing s with
  | nil => trivial
  | cons c cs ih =>
    constructor
    · exact h c List.mem_cons_self s
    · exact ih fun d hd => h d (List.mem_cons_of_mem c hd)

theorem Guarded.mono {P Q : κ → σ → Prop} (h : ∀ c ∈ cs, ∀ s, P c s → Q c s)
    (hg : Guarded P step cs s) : Guarded Q step cs s := by
  induction cs generalizing s with
  | nil => trivial
  | cons c cs ih =>
    obtain ⟨hc, hg⟩ := hg
    constructor
    · exact h c List.mem_cons_self s hc
    · exact ih (fun d hd => h d (List.mem_cons_of_mem c hd)) hg

theorem guarded_append {P : κ → σ → Prop} : Guarded P step (cs ++ ds) s ↔
    Guarded P step cs s ∧ Guarded P step ds (run step cs s).2 := by
  induction cs generalizing s with
  | nil => simp [Guarded]
  | cons c cs ih => simp [Guarded, ih, and_assoc]

/-- What every guarded call preserves holds after every guarded run. -/
theorem run_guarded {P : κ → σ → Prop} {I : σ → Prop}
    (hstep : ∀ c s, P c s → I s → I (step c s).2) (hg : Guarded P step cs s) (hs : I s) :
    I (run step cs s).2 := by
  induction cs generalizing s with
  | nil => exact hs
  | cons c cs ih =>
    obtain ⟨hc, hg⟩ := hg
    exact ih hg (hstep c s hc hs)

/-- What every allowed call preserves holds after every run of allowed calls. -/
theorem run_invariant {I : σ → Prop} (hstep : ∀ c ∈ cs, ∀ s, I s → I (step c s).2) (hs : I s) :
    I (run step cs s).2 :=
  run_guarded (P := fun c _ => c ∈ cs) (fun c s hc hs => hstep c hc s hs)
    (guarded_of_forall fun _ hc _ => hc) hs

theorem run_replies {I : σ → Prop} {P : κ → ρ → Prop}
    (hstep : ∀ c ∈ cs, ∀ s, I s → P c (step c s).1 ∧ I (step c s).2) (hs : I s) :
    ∀ x ∈ cs.zip (run step cs s).1, P x.1 x.2 := by
  induction cs generalizing s with
  | nil =>
    intro x hx
    cases hx
  | cons c cs ih =>
    intro x hx
    obtain ⟨hc, hI⟩ := hstep c List.mem_cons_self s hs
    rw [run_cons, List.zip_cons_cons, List.mem_cons] at hx
    cases hx with
    | inl hx =>
      subst hx
      exact hc
    | inr hx => exact ih (fun d hd => hstep d (List.mem_cons_of_mem c hd)) hI x hx

/-- What a state has to do with the calls and replies that led to it: a summary of the
history is kept up to date one call at a time. -/
theorem run_history {R : σ → τ → Prop} {after : τ → κ × ρ → τ} {t : τ}
    (hstep : ∀ c s t, R s t → R (step c s).2 (after t (c, (step c s).1))) (h : R s t) :
    R (run step cs s).2 ((cs.zip (run step cs s).1).foldl after t) := by
  induction cs generalizing s t with
  | nil => exact h
  | cons c cs ih => exact ih (hstep c s t h)

/-- The replies in a history are those that the calls get one after the other. -/
def Replays (step : κ → σ → ρ × σ) (s : σ) (xs : List (κ × ρ)) : Prop :=
  xs.map Prod.snd = (run step (xs.map Prod.fst) s).1

def replay (step : κ → σ → ρ × σ) (s : σ) (xs : List (κ × ρ)) : σ :=
  (run step (xs.map Prod.fst) s).2

variable {xs ys : List (κ × ρ)} {x : κ × ρ}

@[simp] theorem replays_nil : Replays step s [] := rfl

@[simp] theorem replay_nil : replay step s [] = s := rfl

@[simp] theorem replay_cons : replay step s (x :: xs) = replay step (step x.1 s).2 xs := rfl

@[simp] theorem replays_cons : Replays step s (x :: xs) ↔
    x.2 = (step x.1 s).1 ∧ Replays step (step x.1 s).2 xs := by
  simp [Replays]

theorem replay_append : replay step s (xs ++ ys) = replay step (replay step s xs) ys := by
  simp [replay, run_append]

theorem replays_append : Replays step s (xs ++ ys) ↔
    Replays step s xs ∧ Replays step (replay step s xs) ys := by
  induction xs generalizing s with
  | nil => simp
  | cons x xs ih => simp [ih, and_assoc]

theorem replays_map (f : κ' → κ) {xs : List (κ' × ρ)} :
    (Replays (fun c => step (f c)) s xs ↔ Replays step s (xs.map fun x => (f x.1, x.2))) ∧
      replay (fun c => step (f c)) s xs = replay step s (xs.map fun x => (f x.1, x.2)) := by
  induction xs generalizing s with
  | nil => exact ⟨Iff.rfl, rfl⟩
  | cons x xs ih =>
    obtain ⟨hiff, hstate⟩ := @ih (step (f x.1) s).2
    simp [hiff, hstate]

theorem replays_zip (step : κ → σ → ρ × σ) (cs : List κ) (s : σ) :
    Replays step s (cs.zip (run step cs s).1) ∧
      replay step s (cs.zip (run step cs s).1) = (run step cs s).2 := by
  have hfst : (cs.zip (run step cs s).1).map Prod.fst = cs := List.map_fst_zip (by simp)
  have hsnd : (cs.zip (run step cs s).1).map Prod.snd = (run step cs s).1 :=
    List.map_snd_zip (by simp)
  rw [Replays, replay, hfst, hsnd]
  exact ⟨rfl, rfl⟩

/-- What every call keeps up to date holds at the end of a history. -/
theorem Replays.induct {R : List (κ × ρ) → σ → Prop} (h : Replays step s xs) (h0 : R [] s)
    (hstep : ∀ ys c s, R ys s → R (ys ++ [(c, (step c s).1)]) (step c s).2) :
    R xs (replay step s xs) := by
  induction xs using List.reverseRecOn with
  | nil => exact h0
  | append_singleton ys x ih =>
    obtain ⟨hys, hx⟩ := replays_append.mp h
    obtain ⟨hx, -⟩ := replays_cons.mp hx
    have hnext := hstep ys x.1 _ (ih hys)
    rw [← hx] at hnext
    rw [replay_append]
    exact hnext

/-- The histories of a machine whose replies are not always determined. -/
inductive Allowed (S : τ → κ × ρ → τ → Prop) : τ → List (κ × ρ) → τ → Prop
  | nil (t : τ) : Allowed S t [] t
  | concat {t t' t'' : τ} {xs : List (κ × ρ)} {x : κ × ρ} (h : Allowed S t xs t')
    (hx : S t' x t'') : Allowed S t (xs ++ [x]) t''

/-- A machine each step of which is allowed has allowed histories. -/
theorem allowed_of_replays {S : τ → κ × ρ → τ → Prop} {R : σ → τ → Prop}
    (hstep : ∀ c s t, R s t → ∃ t', S t (c, (step c s).1) t' ∧ R (step c s).2 t')
    {t₀ : τ} {ys : List (κ × ρ)} (hys : Allowed S t₀ ys t) (hR : R s t) (h : Replays step s xs) :
    ∃ t', Allowed S t₀ (ys ++ xs) t' ∧ R (replay step s xs) t' := by
  refine h.induct (R := fun xs s => ∃ t', Allowed S t₀ (ys ++ xs) t' ∧ R s t')
    ⟨t, by simpa using hys, hR⟩ ?_
  intro zs c s hs
  obtain ⟨t', hzs, hR'⟩ := hs
  obtain ⟨t'', hc, hR''⟩ := hstep c s t' hR'
  refine ⟨t'', ?_, hR''⟩
  rw [← List.append_assoc]
  exact hzs.concat hc

theorem allowed_of_run {S : τ → κ × ρ → τ → Prop} {R : σ → τ → Prop}
    (hstep : ∀ c s t, R s t → ∃ t', S t (c, (step c s).1) t' ∧ R (step c s).2 t') (hR : R s t)
    (cs : List κ) :
    ∃ t', Allowed S t (cs.zip (run step cs s).1) t' ∧ R (run step cs s).2 t' := by
  obtain ⟨hreplies, hstate⟩ := replays_zip step cs s
  have hallowed := allowed_of_replays hstep (.nil t) hR hreplies
  rwa [hstate] at hallowed

def kept (keep : κ → ρ → Option κ') (cs : List κ) (rs : List ρ) : List (κ' × ρ) :=
  (cs.zip rs).filterMap fun x => (keep x.1 x.2).map fun c => (c, x.2)

/-- In a guarded run the first machine answers the kept calls as the second machine does. -/
theorem run_simulation_guarded {keep : κ → ρ → Option κ'} {R : σ → τ → Prop} {P : κ → σ → Prop}
    (hskip : ∀ c s t, P c s → R s t → keep c (step c s).1 = none → R (step c s).2 t)
    (hkeep : ∀ c s t c', P c s → R s t → keep c (step c s).1 = some c' →
      (step c s).1 = (step' c' t).1 ∧ R (step c s).2 (step' c' t).2)
    (hg : Guarded P step cs s) (hR : R s t) :
    (kept keep cs (run step cs s).1).map Prod.snd =
        (run step' ((kept keep cs (run step cs s).1).map Prod.fst) t).1 ∧
      R (run step cs s).2 (run step' ((kept keep cs (run step cs s).1).map Prod.fst) t).2 := by
  induction cs generalizing s t with
  | nil => exact ⟨rfl, hR⟩
  | cons c cs ih =>
    obtain ⟨hP, hg⟩ := hg
    cases hc : keep c (step c s).1 with
    | none =>
      have hrec := ih hg (hskip c s t hP hR hc)
      simpa [kept, hc] using hrec
    | some c' =>
      obtain ⟨hreply, hR'⟩ := hkeep c s t c' hP hR hc
      have hrec := ih hg hR'
      constructor
      · simpa [kept, hc, ← hreply] using hrec.1
      · simpa [kept, hc] using hrec.2

/-- The first machine answers the kept calls as the second machine does. -/
theorem run_simulation_kept {keep : κ → ρ → Option κ'} {R : σ → τ → Prop}
    (hskip : ∀ c ∈ cs, ∀ s t, R s t → keep c (step c s).1 = none → R (step c s).2 t)
    (hkeep : ∀ c ∈ cs, ∀ s t c', R s t → keep c (step c s).1 = some c' →
      (step c s).1 = (step' c' t).1 ∧ R (step c s).2 (step' c' t).2) (hR : R s t) :
    (kept keep cs (run step cs s).1).map Prod.snd =
        (run step' ((kept keep cs (run step cs s).1).map Prod.fst) t).1 ∧
      R (run step cs s).2 (run step' ((kept keep cs (run step cs s).1).map Prod.fst) t).2 := by
  apply run_simulation_guarded (P := fun c _ => c ∈ cs)
  · exact fun c s t hc => hskip c hc s t
  · exact fun c s t c' hc => hkeep c hc s t c'
  · exact guarded_of_forall fun _ hc _ => hc
  · exact hR

/-- What two machines answer on the calls that the first one lets through. -/
theorem run_alike {ρ' : Type} {step' : κ' → τ → ρ' × τ} {keep : κ → ρ → Option κ'}
    {A : ρ → ρ' → Prop} {R : σ → τ → Prop}
    (hskip : ∀ c ∈ cs, ∀ s t, R s t → keep c (step c s).1 = none → R (step c s).2 t)
    (hkeep : ∀ c ∈ cs, ∀ s t c', R s t → keep c (step c s).1 = some c' →
      A (step c s).1 (step' c' t).1 ∧ R (step c s).2 (step' c' t).2) (hR : R s t) :
    List.Forall₂ A ((kept keep cs (run step cs s).1).map Prod.snd)
      (run step' ((kept keep cs (run step cs s).1).map Prod.fst) t).1 := by
  induction cs generalizing s t with
  | nil => exact .nil
  | cons c cs ih =>
    obtain ⟨hskipHere, hskip⟩ := List.forall_mem_cons.mp hskip
    obtain ⟨hkeepHere, hkeep⟩ := List.forall_mem_cons.mp hkeep
    cases hc : keep c (step c s).1 with
    | none =>
      have hrec := ih hskip hkeep (hskipHere s t hR hc)
      simpa [kept, hc] using hrec
    | some c' =>
      obtain ⟨hreply, hR'⟩ := hkeepHere s t c' hR hc
      have hrec := ih hskip hkeep hR'
      simpa [kept, hc, hreply] using hrec

theorem map_fst_kept (f : κ → Option κ') {rs : List ρ} (h : rs.length = cs.length) :
    (kept (fun c _ => f c) cs rs).map Prod.fst = cs.filterMap f := by
  induction cs generalizing rs with
  | nil => rfl
  | cons c cs ih =>
    cases rs with
    | nil => cases h
    | cons r rs =>
      have hrec := ih (Nat.succ.inj h)
      cases hc : f c with
      | none => simpa [kept, hc] using hrec
      | some c' => simpa [kept, hc] using hrec

/-- Machines that answer every allowed call alike give the same replies in every run. -/
theorem run_simulation {step' : κ → τ → ρ × τ} {R : σ → τ → Prop}
    (hstep : ∀ c ∈ cs, ∀ s t, R s t →
      (step c s).1 = (step' c t).1 ∧ R (step c s).2 (step' c t).2) (hR : R s t) :
    (run step cs s).1 = (run step' cs t).1 ∧ R (run step cs s).2 (run step' cs t).2 := by
  induction cs generalizing s t with
  | nil => exact ⟨rfl, hR⟩
  | cons c cs ih =>
    obtain ⟨hreply, hR'⟩ := hstep c List.mem_cons_self s t hR
    obtain ⟨hreplies, hR''⟩ := ih (fun d hd => hstep d (List.mem_cons_of_mem c hd)) hR'
    constructor
    · rw [run_cons, run_cons, hreply, hreplies]
    · exact hR''

end Chton.CallRuns
