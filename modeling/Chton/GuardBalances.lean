import Chton.CellGuards
import Chton.CallRuns
import Mathlib.Data.List.Perm.Basic
import Mathlib.Data.List.Count
import Mathlib.Logic.Relation

/-!
# What guards leave behind

The flags of the cells count the live guards. In the runs that drop the outer guard of a
thread last, a borrow panics only where its own thread already holds a conflicting guard,
and then the section was entered before, so the panic has nothing to release. A system
without live guards is the one that it started as, and whoever holds the section can
always give it back.

On a target with one thread the cell is a plain `RefCell`. A single thread cannot tell
the two apart.
-/

namespace Chton.GuardBalances
open CellGuards CallRuns

variable {T K : Type} [DecidableEq T] [DecidableEq K]
variable {s s' : System T K} {a : Action T K} {o : Outcome} {t : T} {cell : K} {kind : Kind}

theorem acquire_inv (h : step s (.acquire t cell kind) = some (o, s')) :
    s.phase t = .outside ∧ ∃ state : RestoreState,
      (state = false ∧ s.holder = none ∨ state = true ∧ s.holder = some t) ∧
      s' = { s with
        holder := some t, phase := Function.update s.phase t (.acquired cell kind state) } := by
  simp only [step] at h
  split at h
  · next hphase =>
    split at h
    · next state holder hacquire =>
      cases h
      refine ⟨hphase, state, ?_, ?_⟩
      · cases hholder : s.holder with
        | none =>
          rw [hholder] at hacquire
          cases hacquire
          exact .inl ⟨rfl, rfl⟩
        | some u =>
          rw [hholder, acquire] at hacquire
          split at hacquire
          · next hu =>
            cases hacquire
            exact .inr ⟨rfl, congrArg some hu⟩
          · cases hacquire
      · rw [(acquire_cases hacquire).1]
    · cases h
  · cases h

theorem borrow_inv (h : step s (.borrow t) = some (o, s')) :
    ∃ cell kind state, s.phase t = .acquired cell kind state ∧
      ((∃ flag, borrowRef (s.flag cell) kind = some flag ∧ o = .done ∧ s' = { s with
          flag := Function.update s.flag cell flag
          phase := Function.update s.phase t .outside
          live := ⟨t, cell, kind, state⟩ :: s.live }) ∨
        borrowRef (s.flag cell) kind = none ∧ o = .panicked ∧
          s' = { s with phase := Function.update s.phase t .outside }) := by
  simp only [step] at h
  split at h
  · next cell kind state hphase =>
    refine ⟨cell, kind, state, hphase, ?_⟩
    split at h
    · next flag hflag =>
      cases h
      exact .inl ⟨flag, hflag, rfl, rfl⟩
    · next hflag =>
      cases h
      exact .inr ⟨hflag, rfl, rfl⟩
  · cases h

theorem drop_inv {i : ℕ} (h : step s (.drop i) = some (o, s')) :
    ∃ g, s.live[i]? = some g ∧ s.phase g.owner = .outside ∧ o = .done ∧ s' = { s with
      flag := Function.update s.flag g.cell (dropRef (s.flag g.cell) g.kind)
      phase := Function.update s.phase g.owner (.dropped g.state)
      live := s.live.eraseIdx i } := by
  simp only [step] at h
  split at h
  · next g hg =>
    split at h
    · next hphase =>
      cases h
      exact ⟨g, hg, hphase, rfl, rfl⟩
    · cases h
  · cases h

theorem release_inv (h : step s (.release t) = some (o, s')) :
    ∃ state, s.phase t = .dropped state ∧ o = .done ∧ s' = { s with
      holder := release state s.holder
      phase := Function.update s.phase t .outside } := by
  simp only [step] at h
  split at h
  · next state hphase =>
    cases h
    exact ⟨state, hphase, rfl, rfl⟩
  · cases h

def held (gs : List (Guard T K)) (cell : K) (kind : Kind) : ℕ :=
  gs.countP fun g => g.cell = cell ∧ g.kind = kind

/-- The flag of a cell says which guards on it are live. -/
structure Counted (s : System T K) : Prop where
  flag : ∀ cell, s.flag cell = held s.live cell .shared - held s.live cell .exclusive
  alone : ∀ cell, held s.live cell .exclusive = 0 ∨
    held s.live cell .exclusive = 1 ∧ held s.live cell .shared = 0

section
omit [DecidableEq T]

@[simp] theorem held_nil : held ([] : List (Guard T K)) cell kind = 0 := rfl

theorem held_cons (g : Guard T K) (gs : List (Guard T K)) : held (g :: gs) cell kind =
    held gs cell kind + if g.cell = cell ∧ g.kind = kind then 1 else 0 := by
  simp [held, List.countP_cons]

omit [DecidableEq K] in
theorem perm_drop {gs : List (Guard T K)} {i : ℕ} {g : Guard T K} (h : gs[i]? = some g) :
    gs.Perm (g :: gs.eraseIdx i) := by
  obtain ⟨hi, rfl⟩ := List.getElem?_eq_some_iff.mp h
  exact (List.getElem_cons_eraseIdx_perm hi).symm

theorem held_drop {gs : List (Guard T K)} {i : ℕ} {g : Guard T K} (h : gs[i]? = some g) :
    held gs cell kind =
      held (gs.eraseIdx i) cell kind + if g.cell = cell ∧ g.kind = kind then 1 else 0 := by
  rw [← held_cons]
  exact (perm_drop h).countP_eq _

theorem held_pos_iff {gs : List (Guard T K)} :
    0 < held gs cell kind ↔ ∃ g ∈ gs, g.cell = cell ∧ g.kind = kind := by
  simp [held, List.countP_pos_iff]

def Conflict (kind kind' : Kind) : Prop := kind = .exclusive ∨ kind' = .exclusive

/-- A borrow panics where a live guard is in its way. -/
theorem Counted.borrowRef_none_iff (h : Counted s) : borrowRef (s.flag cell) kind = none ↔
    ∃ g ∈ s.live, g.cell = cell ∧ Conflict kind g.kind := by
  have hflag := h.flag cell
  have hheld (kind : Kind) :
      0 < held s.live cell kind ↔ ∃ g ∈ s.live, g.cell = cell ∧ g.kind = kind := held_pos_iff
  have hshared := hheld .shared
  have hexclusive := hheld .exclusive
  cases kind with
  | shared =>
    have hnone : borrowRef (s.flag cell) .shared = none ↔ 0 < held s.live cell .exclusive := by
      have := h.alone cell
      simp only [borrowRef, ite_eq_right_iff, reduceCtorEq, imp_false]
      omega
    rw [hnone, hexclusive]
    simp [Conflict]
  | exclusive =>
    have hnone : borrowRef (s.flag cell) .exclusive = none ↔
        0 < held s.live cell .exclusive ∨ 0 < held s.live cell .shared := by
      have := h.alone cell
      simp only [borrowRef, ite_eq_right_iff, reduceCtorEq, imp_false]
      omega
    rw [hnone, hexclusive, hshared]
    constructor
    · intro h
      rcases h with ⟨g, hg, hcell, -⟩ | ⟨g, hg, hcell, -⟩
      · exact ⟨g, hg, hcell, .inl rfl⟩
      · exact ⟨g, hg, hcell, .inl rfl⟩
    · intro h
      obtain ⟨g, hg, hcell, -⟩ := h
      cases hkind : g.kind with
      | shared => exact .inr ⟨g, hg, hcell, hkind⟩
      | exclusive => exact .inl ⟨g, hg, hcell, hkind⟩

theorem Counted.borrow (h : Counted s) {flag : ℤ} (hflag : borrowRef (s.flag cell) kind = some flag)
    {state : RestoreState} {phase : T → Phase K} : Counted { s with
      flag := Function.update s.flag cell flag
      phase := phase
      live := ⟨t, cell, kind, state⟩ :: s.live } := by
  have hcell := h.flag cell
  have hfree := h.alone cell
  constructor
  · intro c
    have hc := h.flag c
    by_cases heq : c = cell
    · subst heq
      cases kind with
      | shared =>
        simp only [borrowRef, Option.ite_none_right_eq_some, Option.some.injEq] at hflag
        simp [held_cons]
        omega
      | exclusive =>
        simp only [borrowRef, Option.ite_none_right_eq_some, Option.some.injEq] at hflag
        simp [held_cons]
        omega
    · simp [held_cons, heq, Ne.symm heq, hc]
  · intro c
    have hc := h.alone c
    by_cases heq : c = cell
    · subst heq
      cases kind with
      | shared =>
        simp only [borrowRef, Option.ite_none_right_eq_some, Option.some.injEq] at hflag
        simp [held_cons]
        omega
      | exclusive =>
        simp only [borrowRef, Option.ite_none_right_eq_some, Option.some.injEq] at hflag
        simp [held_cons]
        omega
    · simpa [held_cons, Ne.symm heq] using hc

theorem Counted.drop (h : Counted s) {i : ℕ} {g : Guard T K} (hg : s.live[i]? = some g)
    {phase : T → Phase K} : Counted { s with
      flag := Function.update s.flag g.cell (dropRef (s.flag g.cell) g.kind)
      phase := phase
      live := s.live.eraseIdx i } := by
  constructor
  · intro c
    have hc := h.flag c
    rw [held_drop hg, held_drop hg] at hc
    by_cases heq : c = g.cell
    · subst heq
      cases hkind : g.kind with
      | shared =>
        simp [hkind] at hc
        simp [dropRef]
        omega
      | exclusive =>
        simp [hkind] at hc
        simp [dropRef]
        omega
    · simpa [heq, Ne.symm heq] using hc
  · intro c
    have hc := h.alone c
    rw [held_drop hg, held_drop hg] at hc
    dsimp only
    split at hc
    · omega
    · split at hc
      · omega
      · simpa using hc

end

/-- The thread has a guard that entered the section, or is just entering or leaving it. -/
def Opened (s : System T K) (t : T) : Prop :=
  (∃ g ∈ s.live, g.owner = t ∧ g.state = false) ∨
    (∃ cell kind, s.phase t = .acquired cell kind false) ∨ s.phase t = .dropped false

structure Balanced (s : System T K) : Prop where
  guarded : Guarded s
  counted : Counted s
  opened : ∀ t, s.holder = some t → Opened s t
  entering : ∀ t cell kind, s.phase t = .acquired cell kind false → s.live = []
  once : (s.live.countP fun g => g.state = false) ≤ 1

omit [DecidableEq T] in
theorem balanced_start : Balanced (.start : System T K) where
  guarded := guarded_start
  counted := ⟨fun _ => rfl, fun _ => .inl rfl⟩
  opened _ ht := nomatch ht
  entering _ _ _ _ := rfl
  once := Nat.zero_le 1

omit [DecidableEq T] in
/-- A thread between its steps holds the section through a guard. -/
theorem Balanced.opener (h : Balanced s) (hholder : s.holder = some t)
    (hphase : s.phase t = .outside) : ∃ g ∈ s.live, g.owner = t ∧ g.state = false := by
  rcases h.opened t hholder with hg | ⟨cell, kind, hin⟩ | hout
  · exact hg
  · cases hphase.symm.trans hin
  · cases hphase.symm.trans hout

theorem Balanced.acquire (h : Balanced s)
    (hstep : step s (.acquire t cell kind) = some (o, s')) : Balanced s' := by
  have hguarded := h.guarded.acquire hstep
  obtain ⟨hphase, state, hstate, rfl⟩ := acquire_inv hstep
  constructor
  · exact hguarded
  · exact ⟨h.counted.flag, h.counted.alone⟩
  · intro u hu
    cases hu
    rcases hstate with ⟨rfl, -⟩ | ⟨-, hholder⟩
    · exact .inr (.inl ⟨cell, kind, Function.update_self ..⟩)
    · exact .inl (h.opener hholder hphase)
  · intro u cell' kind' hu
    by_cases heq : u = t
    · subst heq
      dsimp only at hu
      rw [Function.update_self] at hu
      cases hu
      rcases hstate with ⟨-, hnone⟩ | ⟨hfalse, -⟩
      · apply List.eq_nil_iff_forall_not_mem.mpr
        intro g hg
        cases hnone.symm.trans (h.guarded.live g hg)
      · cases hfalse
    · dsimp only at hu
      rw [Function.update_of_ne heq] at hu
      exact h.entering u cell' kind' hu
  · exact h.once

omit [DecidableEq T] in
/-- A borrow that panics found the section entered by an earlier guard of its thread. -/
theorem Balanced.panics (h : Balanced s) {state : RestoreState}
    (hphase : s.phase t = .acquired cell kind state) :
    borrowRef (s.flag cell) kind = none ↔
      state = true ∧ ∃ g ∈ s.live, g.owner = t ∧ g.cell = cell ∧ Conflict kind g.kind := by
  rw [h.counted.borrowRef_none_iff]
  constructor
  · intro hconflict
    obtain ⟨g, hg, hcell, hkind⟩ := hconflict
    have hbusy : s.phase t ≠ .outside := by simp [hphase]
    have howner := (h.guarded.live g hg).symm.trans (h.guarded.busy t hbusy)
    constructor
    · cases state with
      | true => rfl
      | false =>
        rw [h.entering t cell kind hphase] at hg
        cases hg
    · exact ⟨g, hg, Option.some.inj howner, hcell, hkind⟩
  · intro hconflict
    obtain ⟨-, g, hg, -, hcell, hkind⟩ := hconflict
    exact ⟨g, hg, hcell, hkind⟩

theorem Balanced.borrow (h : Balanced s) (hstep : step s (.borrow t) = some (o, s')) :
    Balanced s' := by
  have hguarded := h.guarded.borrow hstep
  obtain ⟨cell, kind, state, hphase, hs'⟩ := borrow_inv hstep
  have hbusy : s.phase t ≠ .outside := by simp [hphase]
  have hopened : state = true → ∃ g ∈ s.live, g.owner = t ∧ g.state = false := by
    intro htrue
    rcases h.opened t (h.guarded.busy t hbusy) with hg | ⟨cell', kind', hin⟩ | hout
    · exact hg
    · rw [hphase, htrue] at hin
      cases hin
    · cases hphase.symm.trans hout
  have howner : ∀ u, s.holder = some u → u = t := fun u hu =>
    Option.some.inj (hu.symm.trans (h.guarded.busy t hbusy))
  have hidle : ∀ u (p : Phase K), Function.update s.phase t .outside u = p → p = .outside :=
    fun u p hp => hp.symm.trans (h.guarded.idle hbusy u)
  rcases hs' with ⟨flag, hflag, -, rfl⟩ | ⟨hnone, -, rfl⟩
  · constructor
    · exact hguarded
    · exact h.counted.borrow hflag
    · intro u hu
      obtain rfl := howner u hu
      cases state with
      | false => exact .inl ⟨_, List.mem_cons_self, rfl, rfl⟩
      | true =>
        obtain ⟨g, hg, hopener⟩ := hopened rfl
        exact .inl ⟨g, List.mem_cons_of_mem _ hg, hopener⟩
    · intro u cell' kind' hu
      cases hidle u _ hu
    · cases state with
      | false => simp [h.entering t cell kind hphase]
      | true => simpa using h.once
  · constructor
    · exact hguarded
    · exact ⟨h.counted.flag, h.counted.alone⟩
    · intro u hu
      obtain rfl := howner u hu
      exact .inl (hopened ((h.panics hphase).mp hnone).1)
    · intro u cell' kind' hu
      cases hidle u _ hu
    · exact h.once

theorem Balanced.drop {i : ℕ} (h : Balanced s) (hcareful : Careful s (.drop i))
    (hstep : step s (.drop i) = some (o, s')) : Balanced s' := by
  have hguarded := h.guarded.drop hcareful hstep
  obtain ⟨g, hg, hphase, -, rfl⟩ := drop_inv hstep
  have hholder := h.guarded.live g (List.mem_of_getElem? hg)
  constructor
  · exact hguarded
  · exact h.counted.drop hg
  · intro u hu
    obtain rfl := Option.some.inj (hu.symm.trans hholder)
    cases hstate : g.state with
    | false => exact .inr (.inr (by simp))
    | true =>
      -- the guard that entered the section is another one, and it stays
      obtain ⟨g', hg', howner, hfalse⟩ := h.opener hholder hphase
      have hne : g' ≠ g := by
        intro heq
        cases hstate.symm.trans (heq ▸ hfalse)
      have hmem := (perm_drop hg).subset hg'
      exact .inl ⟨g', (List.mem_cons.mp hmem).resolve_left hne, howner, hfalse⟩
  · intro u cell' kind' hu
    by_cases heq : u = g.owner
    · simp [heq] at hu
    · simp [heq] at hu
      simp [h.entering u cell' kind' hu] at hg
  · have hcount := (perm_drop hg).countP_eq fun g => decide (g.state = false)
    have honce := h.once
    rw [hcount, List.countP_cons] at honce
    exact Nat.le_of_add_right_le honce

theorem Balanced.release (h : Balanced s) (hstep : step s (.release t) = some (o, s')) :
    Balanced s' := by
  have hguarded := h.guarded.release hstep
  obtain ⟨state, hphase, -, rfl⟩ := release_inv hstep
  have hbusy : s.phase t ≠ .outside := by simp [hphase]
  constructor
  · exact hguarded
  · exact ⟨h.counted.flag, h.counted.alone⟩
  · intro u hu
    cases state with
    | false => cases hu
    | true =>
      have hholder : s.holder = some u := hu
      obtain rfl := Option.some.inj (hholder.symm.trans (h.guarded.busy t hbusy))
      rcases h.opened u hholder with hg | ⟨cell, kind, hin⟩ | hout
      · exact .inl hg
      · cases hphase.symm.trans hin
      · cases hphase.symm.trans hout
  · intro u cell kind hu
    cases hu.symm.trans (h.guarded.idle hbusy u)
  · exact h.once

theorem Balanced.act (h : Balanced s) (hcareful : Careful s a)
    (hstep : step s a = some (o, s')) : Balanced s' := by
  cases a with
  | acquire t cell kind => exact h.acquire hstep
  | borrow t => exact h.borrow hstep
  | drop i => exact h.drop hcareful hstep
  | release t => exact h.release hstep

theorem balanced_of_reached (h : Reached Careful s) : Balanced s := by
  induction h with
  | start => exact balanced_start
  | act _ ha hstep ih => exact ih.act ha hstep

omit [DecidableEq T] in
theorem Balanced.idle (h : Balanced s) (hlive : s.live = []) (hphase : ∀ t, s.phase t = .outside) :
    s = .start := by
  have hholder : s.holder = none := by
    cases hholder : s.holder with
    | none => rfl
    | some t =>
      obtain ⟨g, hg, -⟩ := h.opener hholder (hphase t)
      simp [hlive] at hg
  have hflag : s.flag = fun _ => 0 := by
    funext cell
    simp [h.counted.flag, hlive]
  have hphase' : s.phase = fun _ => .outside := funext hphase
  cases s
  simp_all [System.start]

def CarefulStep (s s' : System T K) : Prop := ∃ a o, Careful s a ∧ step s a = some (o, s')

omit [DecidableEq T] in
theorem Balanced.exists_droppable (h : Balanced s) (hlive : s.live ≠ []) :
    ∃ i g, s.live[i]? = some g ∧ Careful s (.drop i) := by
  by_cases hinner : ∃ g ∈ s.live, g.state = true
  · obtain ⟨g, hg, htrue⟩ := hinner
    obtain ⟨i, hi⟩ := List.mem_iff_getElem?.mp hg
    refine ⟨i, g, hi, ?_⟩
    intro g' hg' hfalse
    cases hi.symm.trans hg'
    cases htrue.symm.trans hfalse
  · -- all guards entered the section, so there is only one
    obtain ⟨g, gs, hgs⟩ := List.exists_cons_of_ne_nil hlive
    have hall : ∀ g ∈ s.live, (decide (g.state = false)) = true := by
      intro g hg
      cases hstate : g.state with
      | false => rfl
      | true => exact absurd ⟨g, hg, hstate⟩ hinner
    have honce := h.once
    rw [List.countP_eq_length.mpr hall] at honce
    refine ⟨0, g, by simp [hgs], ?_⟩
    intro _ _ _ j g' hg' _
    obtain ⟨hj, -⟩ := List.getElem?_eq_some_iff.mp hg'
    omega

theorem Balanced.exit_outside (h : Balanced s) (hphase : ∀ t, s.phase t = .outside) :
    Relation.ReflTransGen CarefulStep s .start := by
  induction hn : s.live.length generalizing s with
  | zero => rw [h.idle (List.length_eq_zero_iff.mp hn) hphase]
  | succ n ih =>
    have hlive : s.live ≠ [] := by
      intro hnil
      simp [hnil] at hn
    obtain ⟨i, g, hg, hcareful⟩ := h.exists_droppable hlive
    have hdrop : step s (.drop i) = some (.done, { s with
        flag := Function.update s.flag g.cell (dropRef (s.flag g.cell) g.kind)
        phase := Function.update s.phase g.owner (.dropped g.state)
        live := s.live.eraseIdx i }) := by
      simp [step, hg, hphase]
    have hdropped := h.drop hcareful hdrop
    obtain ⟨s₂, hrelease⟩ : ∃ s₂, step { s with
        flag := Function.update s.flag g.cell (dropRef (s.flag g.cell) g.kind)
        phase := Function.update s.phase g.owner (.dropped g.state)
        live := s.live.eraseIdx i } (.release g.owner) = some (.done, s₂) := by
      simp [step]
    have hout := hdropped.release hrelease
    obtain ⟨state, hstate, -, rfl⟩ := release_inv hrelease
    refine .head ⟨_, _, hcareful, hdrop⟩ (.head ⟨.release g.owner, _, trivial, hrelease⟩
      (ih hout ?_ ?_))
    · exact hdropped.guarded.idle (by simp)
    · obtain ⟨hi, -⟩ := List.getElem?_eq_some_iff.mp hg
      have hlength := List.length_eraseIdx_of_lt hi
      dsimp only
      omega

/-- From every reached state careful steps lead back to the start. -/
theorem Balanced.exit (h : Balanced s) : Relation.ReflTransGen CarefulStep s .start := by
  by_cases hphase : ∀ t, s.phase t = .outside
  · exact h.exit_outside hphase
  · push Not at hphase
    obtain ⟨t, hbusy⟩ := hphase
    have hidle := h.guarded.idle hbusy
    cases ht : s.phase t with
    | outside => exact absurd ht hbusy
    | acquired cell kind state =>
      cases hflag : borrowRef (s.flag cell) kind with
      | some flag =>
        have hstep : step s (.borrow t) = some (.done, { s with
            flag := Function.update s.flag cell flag
            phase := Function.update s.phase t .outside
            live := ⟨t, cell, kind, state⟩ :: s.live }) := by
          simp [step, ht, hflag]
        exact .head ⟨.borrow t, _, trivial, hstep⟩ ((h.borrow hstep).exit_outside hidle)
      | none =>
        have hstep : step s (.borrow t) =
            some (.panicked, { s with phase := Function.update s.phase t .outside }) := by
          simp [step, ht, hflag]
        exact .head ⟨.borrow t, _, trivial, hstep⟩ ((h.borrow hstep).exit_outside hidle)
    | dropped state =>
      have hstep : step s (.release t) = some (.done, { s with
          holder := CellGuards.release state s.holder
          phase := Function.update s.phase t .outside }) := by
        simp [step, ht]
      exact .head ⟨.release t, _, trivial, hstep⟩ ((h.release hstep).exit_outside hidle)

/-- What a reached state owes to the guards and what it will be without them. -/
structure Settles (s : System T K) : Prop where
  /-- A borrow panics exactly where its own thread holds a conflicting guard of the cell. -/
  panics : ∀ t cell kind state, s.phase t = .acquired cell kind state →
    ((∃ s', step s (.borrow t) = some (.panicked, s')) ↔
      ∃ g ∈ s.live, g.owner = t ∧ g.cell = cell ∧ Conflict kind g.kind)
  /-- The state that a panicking borrow does not release says that the section was held. -/
  nested : ∀ t cell kind state s', s.phase t = .acquired cell kind state →
    step s (.borrow t) = some (.panicked, s') → state = true
  idle : s.live = [] → (∀ t, s.phase t = .outside) → s = .start
  exit : Relation.ReflTransGen CarefulStep s .start

theorem panicked_iff {state : RestoreState} (hphase : s.phase t = .acquired cell kind state) :
    (∃ s', step s (.borrow t) = some (.panicked, s')) ↔ borrowRef (s.flag cell) kind = none := by
  simp only [step, hphase]
  cases borrowRef (s.flag cell) kind with
  | some flag => simp
  | none => simp

theorem careful_runs_settle (h : Reached Careful s) : Settles s := by
  have hs := balanced_of_reached h
  constructor
  · intro t cell kind state hphase
    rw [panicked_iff hphase, hs.panics hphase]
    constructor
    · exact fun hpanics => hpanics.2
    · intro hconflict
      obtain ⟨g, hg, howner, hcell, hkind⟩ := hconflict
      exact (hs.panics hphase).mp (hs.counted.borrowRef_none_iff.mpr ⟨g, hg, hcell, hkind⟩)
  · intro t cell kind state s' hphase hstep
    exact ((hs.panics hphase).mp ((panicked_iff hphase).mp ⟨s', hstep⟩)).1
  · exact hs.idle
  · exact hs.exit

/-- A thread holds a shared guard and enters the section again for an exclusive one. -/
theorem careful_runs_settle_nested :
    ∃ s : System (Fin 2) Unit, Reached Careful s ∧ s.phase 0 = .acquired () .exclusive true ∧
      s.live ≠ [] ∧ Settles s := by
  have hborrowed : Reached Careful _ := .act (.act (.act (T := Fin 2) (K := Unit) .start
    (a := .acquire 0 () .shared) trivial rfl) (a := .borrow 0) trivial rfl)
    (a := .acquire 0 () .exclusive) trivial rfl
  exact ⟨_, hborrowed, rfl, by simp, careful_runs_settle hborrowed⟩

/-- The cells of a target without a critical section, with their live borrows. -/
structure PlainCells (K : Type) where
  flag : K → ℤ
  live : List (K × Kind)

def PlainCells.start : PlainCells K := ⟨fun _ => 0, []⟩

inductive CellCall (K : Type) where
  | borrow (cell : K) (kind : Kind)
  | drop (i : ℕ)

def CellCall.onPlain : CellCall K → PlainCells K → Option (Outcome × PlainCells K)
  | .borrow cell kind, s =>
    match borrowRef (s.flag cell) kind with
    | some flag =>
      some (.done, ⟨Function.update s.flag cell flag, (cell, kind) :: s.live⟩)
    | none => some (.panicked, s)
  | .drop i, s =>
    match s.live[i]? with
    | some g =>
      some (.done, ⟨Function.update s.flag g.1 (dropRef (s.flag g.1) g.2), s.live.eraseIdx i⟩)
    | none => none

/-- The same by a thread behind the critical section: two steps each. -/
def CellCall.onGuards (t : T) : CellCall K → System T K → Option (Outcome × System T K)
  | .borrow cell kind, s =>
    (step s (.acquire t cell kind)).bind fun x => step x.2 (.borrow t)
  | .drop i, s => (step s (.drop i)).bind fun x => step x.2 (.release t)

/-- A call that is not possible changes nothing. -/
def attempt {κ σ ρ : Type} (f : κ → σ → Option (ρ × σ)) (c : κ) (s : σ) : Option ρ × σ :=
  match f c s with
  | some x => (some x.1, x.2)
  | none => (none, s)

structure Matches (t : T) (s : System T K) (p : PlainCells K) : Prop where
  flag : s.flag = p.flag
  live : s.live.map (fun g => (g.cell, g.kind)) = p.live
  owner : ∀ g ∈ s.live, g.owner = t
  phase : ∀ u, s.phase u = .outside
  holder : s.holder = none ∨ s.holder = some t

theorem Matches.borrow {p : PlainCells K} (h : Matches t s p) (cell : K) (kind : Kind) :
    (attempt (CellCall.onGuards t) (.borrow cell kind) s).1 =
        (attempt CellCall.onPlain (.borrow cell kind) p).1 ∧
      Matches t (attempt (CellCall.onGuards t) (.borrow cell kind) s).2
        (attempt CellCall.onPlain (.borrow cell kind) p).2 := by
  obtain ⟨state, hacquire⟩ : ∃ state, CellGuards.acquire s.holder t = some (state, some t) := by
    rcases h.holder with hnone | hsome
    · exact ⟨false, by rw [hnone]; rfl⟩
    · exact ⟨true, by rw [hsome]; exact if_pos rfl⟩
  have hphase : ∀ u, Function.update (Function.update s.phase t (.acquired cell kind state)) t
      .outside u = Phase.outside := by
    intro u
    by_cases hu : u = t
    · simp [hu]
    · simp [hu, h.phase]
  cases hflag : borrowRef (p.flag cell) kind with
  | none =>
    simp only [attempt, CellCall.onGuards, CellCall.onPlain, step, h.phase, hacquire, h.flag, hflag,
      Option.bind_some, Function.update_self]
    exact ⟨trivial, rfl, h.live, h.owner, hphase, .inr rfl⟩
  | some flag =>
    simp only [attempt, CellCall.onGuards, CellCall.onPlain, step, h.phase, hacquire, h.flag, hflag,
      Option.bind_some, Function.update_self]
    refine ⟨trivial, rfl, ?_, ?_, hphase, .inr rfl⟩
    · simp [h.live]
    · intro g hg
      rcases List.mem_cons.mp hg with rfl | hg
      · rfl
      · exact h.owner g hg

theorem Matches.drop {p : PlainCells K} (h : Matches t s p) (i : ℕ) :
    (attempt (CellCall.onGuards t) (.drop i) s).1 = (attempt CellCall.onPlain (.drop i) p).1 ∧
      Matches t (attempt (CellCall.onGuards t) (.drop i) s).2
        (attempt CellCall.onPlain (.drop i) p).2 := by
  have hlive : p.live[i]? = (s.live[i]?).map fun g => (g.cell, g.kind) := by
    rw [← h.live, List.getElem?_map]
  cases hg : s.live[i]? with
  | none =>
    simp only [attempt, CellCall.onGuards, CellCall.onPlain, step, hlive, hg, Option.map_none,
      Option.bind_none]
    exact ⟨trivial, h⟩
  | some g =>
    obtain rfl := h.owner g (List.mem_of_getElem? hg)
    simp only [attempt, CellCall.onGuards, CellCall.onPlain, step, hlive, hg, Option.map_some,
      h.phase, Option.bind_some, Function.update_self, h.flag]
    refine ⟨trivial, rfl, ?_, ?_, ?_, ?_⟩
    · rw [← h.live, List.eraseIdx_map]
    · exact fun g' hg' => h.owner g' (List.mem_of_mem_eraseIdx hg')
    · intro u
      by_cases hu : u = g.owner
      · simp [hu]
      · simp [hu, h.phase]
    · cases g.state with
      | false => exact .inl rfl
      | true => exact h.holder

/-- One thread gets the same outcome from every borrow, whatever the order of its drops, and
is left with corresponding guards. -/
theorem single_thread_plain (t : T) (cs : List (CellCall K)) :
    (run (attempt (CellCall.onGuards t)) cs .start).1 =
        (run (attempt CellCall.onPlain) cs .start).1 ∧
      Matches t (run (attempt (CellCall.onGuards t)) cs .start).2
        (run (attempt CellCall.onPlain) cs .start).2 := by
  apply run_simulation
  · intro c _ s p h
    cases c with
    | borrow cell kind => exact h.borrow cell kind
    | drop i => exact h.drop i
  · exact ⟨rfl, rfl, fun _ hg => absurd hg List.not_mem_nil, fun _ => rfl, .inl rfl⟩

end Chton.GuardBalances
