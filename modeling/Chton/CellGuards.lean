import Mathlib.Data.Int.Notation
import Mathlib.Data.List.Basic
import Mathlib.Logic.Function.Basic

/-!
# Guards of cells behind one critical section

Every borrow of a cell first enters the critical section that all cells share, keeps the
restore state that `acquire` returned, and then borrows the `RefCell`. Dropping a guard
drops the `RefCell` borrow and then releases the section with that state. A thread takes
these four steps one at a time, and the threads take them in any order.

A restore state says only what its own `acquire` saw. The guard that entered the section
leaves it on its drop, whether or not the thread still has other guards.
-/

namespace Chton.CellGuards

variable {T K : Type} [DecidableEq T] [DecidableEq K]

/-- The restore state: whether the section was already held by the caller. -/
abbrev RestoreState := Bool

/-- `critical_section::acquire`. Without a result the caller waits. -/
def acquire (holder : Option T) (t : T) : Option (RestoreState × Option T) :=
  match holder with
  | none => some (false, some t)
  | some h => if h = t then some (true, some h) else none

/-- `critical_section::release`. -/
def release (state : RestoreState) (holder : Option T) : Option T :=
  if state then holder else none

inductive Kind where
  | shared
  | exclusive
  deriving DecidableEq

/-- Borrow a `RefCell` with this flag, the number of shared borrows or -1 for an exclusive
one. Without a result the borrow panics. -/
def borrowRef (flag : ℤ) : Kind → Option ℤ
  | .shared => if 0 ≤ flag then some (flag + 1) else none
  | .exclusive => if flag = 0 then some (-1) else none

def dropRef (flag : ℤ) : Kind → ℤ
  | .shared => flag - 1
  | .exclusive => flag + 1

/-- A live `Ref` or `RefMut`: the borrowed cell and the state inside its `CsGuard`. -/
structure Guard (T K : Type) where
  owner : T
  cell : K
  kind : Kind
  state : RestoreState

/-- Where a thread stands in `borrow`, `borrow_mut` or in the drop of a guard. -/
inductive Phase (K : Type) where
  | outside
  | acquired (cell : K) (kind : Kind) (state : RestoreState)
  | dropped (state : RestoreState)

structure System (T K : Type) where
  holder : Option T
  flag : K → ℤ
  phase : T → Phase K
  live : List (Guard T K)

def System.start : System T K := ⟨none, fun _ => 0, fun _ => .outside, []⟩

/-- The steps of a thread: the two halves of a borrow and the two halves of a drop. -/
inductive Action (T K : Type) where
  | acquire (t : T) (cell : K) (kind : Kind)
  | borrow (t : T)
  | drop (i : ℕ)
  | release (t : T)

inductive Outcome where
  | done
  | panicked

/-- One step. A step without a result is not possible, in particular while it waits. -/
def step (s : System T K) : Action T K → Option (Outcome × System T K)
  | .acquire t cell kind =>
    match s.phase t with
    | .outside =>
      match CellGuards.acquire s.holder t with
      | some (state, holder) =>
        some (.done, { s with
          holder := holder, phase := Function.update s.phase t (.acquired cell kind state) })
      | none => none
    | _ => none
  | .borrow t =>
    match s.phase t with
    | .acquired cell kind state =>
      match borrowRef (s.flag cell) kind with
      | some flag =>
        some (.done, { s with
          flag := Function.update s.flag cell flag
          phase := Function.update s.phase t .outside
          live := ⟨t, cell, kind, state⟩ :: s.live })
      -- the panic comes before the `CsGuard` is built, so nothing is released
      | none => some (.panicked, { s with phase := Function.update s.phase t .outside })
    | _ => none
  | .drop i =>
    match s.live[i]? with
    | some g =>
      match s.phase g.owner with
      | .outside =>
        some (.done, { s with
          flag := Function.update s.flag g.cell (dropRef (s.flag g.cell) g.kind)
          phase := Function.update s.phase g.owner (.dropped g.state)
          live := s.live.eraseIdx i })
      | _ => none
    | none => none
  | .release t =>
    match s.phase t with
    | .dropped state =>
      some (.done, { s with
        holder := CellGuards.release state s.holder
        phase := Function.update s.phase t .outside })
    | _ => none

inductive Reached (allowed : System T K → Action T K → Prop) : System T K → Prop
  | start : Reached allowed .start
  | act {s s' : System T K} {a : Action T K} {o : Outcome} (hs : Reached allowed s)
      (ha : allowed s a) (hstep : step s a = some (o, s')) : Reached allowed s'

/-- A guard that entered the section is dropped as the last one of its thread. -/
def Careful (s : System T K) : Action T K → Prop
  | .drop i => ∀ g, s.live[i]? = some g → g.state = false →
      ∀ j g', s.live[j]? = some g' → g'.owner = g.owner → j = i
  | _ => True

/-- Behind a live guard its owner holds the section, so all live guards have one owner and
the borrows of any other thread wait. -/
def Protected (s : System T K) : Prop :=
  ∀ g ∈ s.live, s.holder = some g.owner ∧ (∀ g' ∈ s.live, g'.owner = g.owner) ∧
    ∀ t, t ≠ g.owner → s.phase t = .outside ∧
      ∀ cell kind, step s (.acquire t cell kind) = none

/-- Live guards and threads in the middle of a step are inside the section, and a thread
that is about to leave it leaves no guard behind. -/
structure Guarded (s : System T K) : Prop where
  live : ∀ g ∈ s.live, s.holder = some g.owner
  busy : ∀ t, s.phase t ≠ .outside → s.holder = some t
  leaving : ∀ t, s.phase t = .dropped false → s.live = []

variable {s s' : System T K} {a : Action T K} {o : Outcome} {t : T}

theorem acquire_cases {holder holder' : Option T} {state : RestoreState}
    (h : acquire holder t = some (state, holder')) :
    holder' = some t ∧ (holder = none ∨ holder = some t) := by
  cases holder with
  | none =>
    cases h
    exact ⟨rfl, .inl rfl⟩
  | some u =>
    rw [acquire] at h
    split at h
    · next hu =>
      cases h
      exact ⟨congrArg some hu, .inr (congrArg some hu)⟩
    · cases h

theorem acquire_other {u : T} (h : t ≠ u) : acquire (some u) t = none :=
  if_neg h.symm

omit [DecidableEq T] [DecidableEq K] in
theorem guarded_start : Guarded (.start : System T K) where
  live _ hg := nomatch hg
  busy _ ht := absurd rfl ht
  leaving _ ht := nomatch ht

theorem Guarded.protected (h : Guarded s) : Protected s := by
  intro g hg
  have hholder := h.live g hg
  constructor
  · exact hholder
  constructor
  · intro g' hg'
    exact Option.some.inj ((h.live g' hg').symm.trans hholder)
  · intro t ht
    constructor
    · by_contra hbusy
      exact ht (Option.some.inj ((h.busy t hbusy).symm.trans hholder))
    · intro cell kind
      simp only [step, hholder, acquire_other ht]
      split <;> rfl

theorem Guarded.acquire {cell : K} {kind : Kind} (h : Guarded s)
    (hstep : step s (.acquire t cell kind) = some (o, s')) : Guarded s' := by
  simp only [step] at hstep
  split at hstep
  · split at hstep
    · next state holder hacquire =>
      cases hstep
      obtain ⟨rfl, hholder⟩ := acquire_cases hacquire
      have hother : ∀ u, s.holder = some u → u = t := by
        intro u hu
        cases hholder with
        | inl hnone => exact nomatch hu.symm.trans hnone
        | inr hsome => exact Option.some.inj (hu.symm.trans hsome)
      constructor
      · intro g hg
        exact congrArg some (hother _ (h.live g hg)).symm
      · intro u hu
        by_cases heq : u = t
        · exact congrArg some heq.symm
        · simp only [Function.update_of_ne heq] at hu
          exact congrArg some (hother u (h.busy u hu)).symm
      · intro u hu
        by_cases heq : u = t
        · simp only [heq, Function.update_self] at hu
          cases hu
        · simp only [Function.update_of_ne heq] at hu
          exact h.leaving u hu
    · cases hstep
  · cases hstep

omit [DecidableEq T] [DecidableEq K] in
/-- The thread that is in the middle of a step is the only one. -/
theorem Guarded.others (h : Guarded s) (ht : s.phase t ≠ .outside) {u : T} (hu : u ≠ t) :
    s.phase u = .outside := by
  by_contra hbusy
  exact hu (Option.some.inj ((h.busy u hbusy).symm.trans (h.busy t ht)))

omit [DecidableEq K] in
theorem Guarded.idle (h : Guarded s) (ht : s.phase t ≠ .outside) (u : T) :
    Function.update s.phase t .outside u = .outside := by
  by_cases hu : u = t
  · rw [hu, Function.update_self]
  · rw [Function.update_of_ne hu]
    exact h.others ht hu

theorem Guarded.borrow (h : Guarded s) (hstep : step s (.borrow t) = some (o, s')) :
    Guarded s' := by
  simp only [step] at hstep
  split at hstep
  · next cell kind state hphase =>
    have ht : s.phase t ≠ .outside := by
      rw [hphase]
      exact fun heq => nomatch heq
    split at hstep
    · cases hstep
      constructor
      · intro g hg
        cases List.mem_cons.mp hg with
        | inl hnew =>
          rw [hnew]
          exact h.busy t ht
        | inr hold => exact h.live g hold
      · intro u hu
        exact absurd (h.idle ht u) hu
      · intro u hu
        exact nomatch (h.idle ht u).symm.trans hu
    · cases hstep
      constructor
      · exact h.live
      · intro u hu
        exact absurd (h.idle ht u) hu
      · intro u hu
        exact nomatch (h.idle ht u).symm.trans hu
  · cases hstep

theorem Guarded.release (h : Guarded s) (hstep : step s (.release t) = some (o, s')) :
    Guarded s' := by
  simp only [step] at hstep
  split at hstep
  · next state hphase =>
    cases hstep
    have ht : s.phase t ≠ .outside := by
      rw [hphase]
      exact fun heq => nomatch heq
    constructor
    · intro g hg
      cases state with
      | true => exact h.live g hg
      | false =>
        -- a thread that leaves the section has no guard, and no other thread has one
        rw [h.leaving t hphase] at hg
        exact nomatch hg
    · intro u hu
      exact absurd (h.idle ht u) hu
    · intro u hu
      exact nomatch (h.idle ht u).symm.trans hu
  · cases hstep

theorem Guarded.drop {i : ℕ} (h : Guarded s) (hcareful : Careful s (.drop i))
    (hstep : step s (.drop i) = some (o, s')) : Guarded s' := by
  simp only [step] at hstep
  split at hstep
  · next g hg =>
    split at hstep
    · next hphase =>
      cases hstep
      have hholder := h.live g (List.mem_of_getElem? hg)
      constructor
      · intro g' hg'
        exact h.live g' (List.mem_of_mem_eraseIdx hg')
      · intro u hu
        by_cases heq : u = g.owner
        · rw [heq]
          exact hholder
        · simp only [Function.update_of_ne heq] at hu
          exact h.busy u hu
      · intro u hu
        by_cases heq : u = g.owner
        · -- every live guard belongs to the holder, and the holder has no other one
          simp only [heq, Function.update_self] at hu
          have hstate : g.state = false := Phase.dropped.inj hu
          apply List.eq_nil_iff_forall_not_mem.mpr
          intro g' hg'
          obtain ⟨j, hj, hg'⟩ := List.mem_eraseIdx_iff_getElem?.mp hg'
          have howner := (h.live g' (List.mem_of_getElem? hg')).symm.trans hholder
          exact hj (hcareful g hg hstate j g' hg' (Option.some.inj howner))
        · simp only [Function.update_of_ne heq] at hu
          rw [h.leaving u hu] at hg
          exact nomatch hg
    · cases hstep
  · cases hstep

theorem Guarded.step (h : Guarded s) (hcareful : Careful s a)
    (hstep : step s a = some (o, s')) : Guarded s' := by
  cases a with
  | acquire t cell kind => exact h.acquire hstep
  | borrow t => exact h.borrow hstep
  | drop i => exact h.drop hcareful hstep
  | release t => exact h.release hstep

theorem guarded_of_reached (h : Reached Careful s) : Guarded s := by
  induction h with
  | start => exact guarded_start
  | act _ ha hstep ih => exact ih.step ha hstep

/-- As long as every guard that entered the section is dropped last, no guard is live
outside the section. -/
theorem careful_runs_protected (h : Reached Careful s) : Protected s :=
  (guarded_of_reached h).protected

/-- A careless drop takes the protection from a guard of the same thread. -/
theorem careless_drop {i : ℕ} (hcareless : ¬ Careful s (.drop i))
    (hdrop : step s (.drop i) = some (o, s')) :
    ∃ g, s.live[i]? = some g ∧ ∃ s'', step s' (.release g.owner) = some (.done, s'') ∧
      ¬ Protected s'' := by
  rw [Careful] at hcareless
  push Not at hcareless
  obtain ⟨g, hg, hstate, j, g', hg', howner, hj⟩ := hcareless
  simp only [step, hg] at hdrop
  split at hdrop
  · cases hdrop
    have hlive : g' ∈ s.live.eraseIdx i := List.mem_eraseIdx_iff_getElem?.mpr ⟨j, hj, hg'⟩
    refine ⟨g, hg, ?_⟩
    simp only [step, Function.update_self, hstate]
    refine ⟨_, rfl, ?_⟩
    intro hprotected
    exact nomatch (hprotected g' hlive).1
  · cases hdrop

/-- Two nested guards of one thread, the inner one dropped first. -/
theorem careful_runs_protected_nested :
    ∃ s : System (Fin 2) Unit, Reached Careful s ∧ s.live.length = 1 ∧ Protected s := by
  have hone : ∀ (s : System (Fin 2) Unit) (g g' : Guard (Fin 2) Unit), s.live = [g, g'] →
      g.state = true → Careful s (.drop 0) := by
    intro s g g' hlive hstate x hx hfalse
    rw [hlive] at hx
    cases hx
    exact nomatch hstate.symm.trans hfalse
  have hborrowed : Reached Careful _ := .act (.act (.act (.act (T := Fin 2) (K := Unit) .start
    (a := .acquire 0 () .shared) trivial rfl) (a := .borrow 0) trivial rfl)
    (a := .acquire 0 () .shared) trivial rfl) (a := .borrow 0) trivial rfl
  have hdropped := Reached.act (.act hborrowed (a := .drop 0) (hone _ _ _ rfl rfl) rfl)
    (a := .release 0) trivial rfl
  exact ⟨_, hdropped, rfl, careful_runs_protected hdropped⟩

/-- The guard that entered the section is dropped before the nested one: the section is
free, a guard is live, and the borrow of another thread panics instead of waiting. -/
theorem outer_guard_dropped_first :
    ∃ s : System (Fin 2) Unit, Reached (fun _ _ => True) s ∧
      (∃ g ∈ s.live, s.holder ≠ some g.owner) ∧
      ∃ s₁ s₂, step s (.acquire 1 () .exclusive) = some (.done, s₁) ∧
        step s₁ (.borrow 1) = some (.panicked, s₂) := by
  have hborrowed : Reached (fun _ _ => True) _ := .act (.act (.act (.act (T := Fin 2) (K := Unit)
    .start (a := .acquire 0 () .shared) trivial rfl) (a := .borrow 0) trivial rfl)
    (a := .acquire 0 () .shared) trivial rfl) (a := .borrow 0) trivial rfl
  have hdropped := Reached.act (.act hborrowed (a := .drop 1) trivial rfl)
    (a := .release 0) trivial rfl
  refine ⟨_, hdropped, ⟨_, List.mem_cons_self, ?_⟩, _, _, rfl, rfl⟩
  exact fun h => nomatch h

end Chton.CellGuards
