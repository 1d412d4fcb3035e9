import Chton.GuardBalances

/-!
# Calls of many threads on shared cells

A call enters the section, borrows its cell, reads it, writes back what it makes of it,
drops the guard and leaves the section. The threads take these steps in any order. What
they see is a sequential run of the same calls, in the order in which they wrote back, and
each call wrote between its start and its return.
-/

namespace Chton.SharedCells
open CellGuards GuardBalances CallRuns

structure Calls (K D κ ρ : Type) where
  cell : κ → K
  kind : κ → Kind
  perform : κ → D → ρ × D

inductive Stage (D κ ρ : Type) where
  | idle
  | entered (c : κ)
  | borrowed (c : κ)
  | viewed (c : κ) (copy : D)
  | written (c : κ) (r : ρ)
  | leaving (c : κ) (r : ρ)
  | stuck

structure Shared (T K D κ ρ : Type) where
  cells : System T K
  data : K → D
  stage : T → Stage D κ ρ

inductive Move (T κ : Type) where
  | enter (t : T) (c : κ)
  | borrow (t : T)
  | view (t : T)
  | write (t : T)
  | drop (t : T) (i : ℕ)
  | leave (t : T)

inductive Event (T κ ρ : Type) where
  | called (t : T) (c : κ)
  | applied (t : T) (c : κ) (r : ρ)
  | returned (t : T) (r : ρ)
  | panicked (t : T)

section
variable {T K D κ ρ : Type} [DecidableEq T] [DecidableEq K] (calls : Calls K D κ ρ)

/-- All cells with the same data and no thread in a call. -/
def Shared.start (data : K → D) : Shared T K D κ ρ := ⟨.start, data, fun _ => .idle⟩

def Shared.become (s : Shared T K D κ ρ) (t : T) (stage : Stage D κ ρ) (cells : System T K) :
    Shared T K D κ ρ := { s with cells := cells, stage := Function.update s.stage t stage }

def Shared.move (s : Shared T K D κ ρ) :
    Move T κ → Option (Option (Event T κ ρ) × Shared T K D κ ρ)
  | .enter t c =>
    match s.stage t with
    | .idle =>
      match step s.cells (.acquire t (calls.cell c) (calls.kind c)) with
      | some x => some (some (.called t c), s.become t (.entered c) x.2)
      | none => none
    | _ => none
  | .borrow t =>
    match s.stage t with
    | .entered c =>
      match step s.cells (.borrow t) with
      | some (.done, cells) => some (none, s.become t (.borrowed c) cells)
      | some (.panicked, cells) => some (some (.panicked t), s.become t .stuck cells)
      | none => none
    | _ => none
  | .view t =>
    match s.stage t with
    | .borrowed c => some (none, s.become t (.viewed c (s.data (calls.cell c))) s.cells)
    | _ => none
  | .write t =>
    match s.stage t with
    | .viewed c copy =>
      some (some (.applied t c (calls.perform c copy).1),
        { s.become t (.written c (calls.perform c copy).1) s.cells with
          data := Function.update s.data (calls.cell c) (calls.perform c copy).2 })
    | _ => none
  | .drop t i =>
    match s.stage t with
    | .written c r =>
      match s.cells.live[i]? with
      | some g =>
        if g.owner = t then
          match step s.cells (.drop i) with
          | some x => some (none, s.become t (.leaving c r) x.2)
          | none => none
        else none
      | none => none
    | _ => none
  | .leave t =>
    match s.stage t with
    | .leaving _ r =>
      match step s.cells (.release t) with
      | some x => some (some (.returned t r), s.become t .idle x.2)
      | none => none
    | _ => none

/-- The events of the runs from these data, with the states reached. -/
inductive Reached (data : K → D) : List (Event T κ ρ) → Shared T K D κ ρ → Prop
  | start : Reached data [] (.start data)
  | move {es : List (Event T κ ρ)} {s s' : Shared T K D κ ρ} {e : Option (Event T κ ρ)}
    (hs : Reached data es s) (m : Move T κ) (hm : s.move calls m = some (e, s')) :
    Reached data (es ++ e.toList) s'

/-- A call that nothing interrupts. -/
def Calls.step (c : κ) (data : K → D) : ρ × (K → D) :=
  ((calls.perform c (data (calls.cell c))).1,
    Function.update data (calls.cell c) (calls.perform c (data (calls.cell c))).2)

def Event.entry : Event T κ ρ → Option (T × κ × ρ)
  | .applied t c r => some (t, c, r)
  | _ => none

/-- The calls that have written, in that order, with their threads and replies. -/
def log (es : List (Event T κ ρ)) : List (T × κ × ρ) := es.filterMap Event.entry

def logOf (cell : K) (es : List (Event T κ ρ)) : List (T × κ × ρ) :=
  (log es).filter fun x => calls.cell x.2.1 = cell

def Event.thread : Event T κ ρ → T
  | .called t _ => t
  | .applied t _ _ => t
  | .returned t _ => t
  | .panicked t => t

def whole (t : T) (x : κ × ρ) : List (Event T κ ρ) :=
  [.called t x.1, .applied t x.1 x.2, .returned t x.2]

def Stage.begun (t : T) : Stage D κ ρ → List (Event T κ ρ)
  | .entered c => [.called t c]
  | .borrowed c => [.called t c]
  | .viewed c _ => [.called t c]
  | .written c r => [.called t c, .applied t c r]
  | .leaving c r => [.called t c, .applied t c r]
  | _ => []

/-- What every run has in common with a sequential run. -/
structure Sequential (data : K → D) (es : List (Event T κ ρ)) (s : Shared T K D κ ρ) : Prop where
  /-- One after the other in the order of the log, the calls get the same replies. -/
  replies : Replays calls.step data ((log es).map Prod.snd)
  data : s.data = replay calls.step data ((log es).map Prod.snd)
  /-- Each call of a thread is in the log between its start and its return. -/
  calls : ∀ t, ∃ xs : List (κ × ρ),
    (es.filter fun e => e.thread = t) = xs.flatMap (whole t) ++ (s.stage t).begun t
  /-- No borrow panics. -/
  quiet : ∀ t, .panicked t ∉ es

end

variable {T K D κ ρ : Type} [DecidableEq T] [DecidableEq K] {calls : Calls K D κ ρ}
  {s s' : Shared T K D κ ρ} {data : K → D} {es : List (Event T κ ρ)} {e : Option (Event T κ ρ)}
  {t u : T} {c : κ} {r : ρ} {copy : D}

def Stage.guards : Stage D κ ρ → ℕ
  | .borrowed _ => 1
  | .viewed _ _ => 1
  | .written _ _ => 1
  | _ => 0

/-- Where a thread at this stage stands in its borrow or its drop; it is never stuck. -/
def Stage.InPhase (calls : Calls K D κ ρ) : Stage D κ ρ → Phase K → Prop
  | .entered c, p => ∃ state, p = .acquired (calls.cell c) (calls.kind c) state
  | .leaving _ _, p => ∃ state, p = .dropped state
  | .stuck, _ => False
  | _, p => p = .outside

/-- Stages, guards and copies fit together. -/
structure Consistent (calls : Calls K D κ ρ) (s : Shared T K D κ ρ) : Prop where
  reached : CellGuards.Reached Careful s.cells
  phase : ∀ t, (s.stage t).InPhase calls (s.cells.phase t)
  guards : ∀ t, (s.cells.live.countP fun g => g.owner = t) = (s.stage t).guards
  copy : ∀ t c copy, s.stage t = .viewed c copy → copy = s.data (calls.cell c)

theorem Consistent.balanced (h : Consistent calls s) : Balanced s.cells :=
  balanced_of_reached h.reached

theorem Consistent.holder (h : Consistent calls s) (ht : 0 < (s.stage t).guards) :
    s.cells.holder = some t := by
  rw [← h.guards, List.countP_pos_iff] at ht
  obtain ⟨g, hg, howner⟩ := ht
  rw [h.balanced.guarded.live g hg, decide_eq_true_iff.mp howner]

theorem Consistent.exclusive (h : Consistent calls s) (ht : 0 < (s.stage t).guards)
    (hu : 0 < (s.stage u).guards) : t = u :=
  Option.some.inj ((h.holder ht).symm.trans (h.holder hu))

/-- The only guard of a thread may be dropped at any time. -/
theorem Consistent.careful (h : Consistent calls s) {i : ℕ} {g : Guard T K}
    (hg : s.cells.live[i]? = some g) : Careful s.cells (.drop i) := by
  intro g₁ hg₁ _ j g' hg' howner
  cases hg.symm.trans hg₁
  by_contra hj
  have hone : (s.stage g.owner).guards ≤ 1 := by
    cases s.stage g.owner <;> simp [Stage.guards]
  have hmem : g' ∈ s.cells.live.eraseIdx i := List.mem_eraseIdx_iff_getElem?.mpr ⟨j, hj, hg'⟩
  have hpos : 0 < (s.cells.live.eraseIdx i).countP fun g₁ => g₁.owner = g.owner :=
    List.countP_pos_iff.mpr ⟨g', hmem, by simpa using howner⟩
  have hcount := (perm_drop hg).countP_eq fun g₁ => decide (g₁.owner = g.owner)
  rw [h.guards, List.countP_cons_of_pos (by simp)] at hcount
  omega

omit [DecidableEq K] in
theorem become_stage (stage : Stage D κ ρ) (cells : System T K) (u : T) :
    (s.become t stage cells).stage u = if u = t then stage else s.stage u := by
  simp [Shared.become, Function.update_apply]

omit [DecidableEq K] in
@[simp] theorem become_cells (stage : Stage D κ ρ) (cells : System T K) :
    (s.become t stage cells).cells = cells := rfl

omit [DecidableEq K] in
@[simp] theorem become_data (stage : Stage D κ ρ) (cells : System T K) :
    (s.become t stage cells).data = s.data := rfl

/-- A step on the guards alone keeps everything together if it fits the new stage. -/
theorem Consistent.become (h : Consistent calls s) {stage : Stage D κ ρ} {cells : System T K}
    (hreached : CellGuards.Reached Careful cells)
    (hphase : ∀ u, u ≠ t → cells.phase u = s.cells.phase u)
    (hself : stage.InPhase calls (cells.phase t))
    (hguards : ∀ u, u ≠ t → (cells.live.countP fun g => g.owner = u) =
      s.cells.live.countP fun g => g.owner = u)
    (hcount : (cells.live.countP fun g => g.owner = t) = stage.guards)
    (hcopy : ∀ c copy, stage = .viewed c copy → copy = s.data (calls.cell c)) :
    Consistent calls (s.become t stage cells) := by
  constructor
  · exact hreached
  · intro u
    rw [become_stage]
    split
    · next heq => exact heq ▸ hself
    · next hne =>
      rw [become_cells, hphase u hne]
      exact h.phase u
  · intro u
    rw [become_stage]
    split
    · next heq => exact heq ▸ hcount
    · next hne =>
      rw [become_cells, hguards u hne]
      exact h.guards u
  · intro u c copy hu
    rw [become_stage] at hu
    split at hu
    · exact hcopy c copy hu
    · exact h.copy u c copy hu

theorem Consistent.wrote (h : Consistent calls s) (hs : s.stage t = .viewed c copy)
    {d : D} {r : ρ} : Consistent calls { s.become t (.written c r) s.cells with
      data := Function.update s.data (calls.cell c) d } := by
  have ht : 0 < (s.stage t).guards := by simp [hs, Stage.guards]
  have hself := h.phase t
  have hcount := h.guards t
  rw [hs] at hself hcount
  have hnext : Consistent calls (s.become t (.written c r) s.cells) :=
    h.become h.reached (fun _ _ => rfl) hself (fun _ _ => rfl) hcount fun _ _ h => nomatch h
  constructor
  · exact hnext.reached
  · exact hnext.phase
  · exact hnext.guards
  · intro u c' copy' hu
    exfalso
    dsimp only at hu
    rw [become_stage] at hu
    split at hu
    · cases hu
    · next hne =>
      exact hne (h.exclusive ht (by simp [hu, Stage.guards])).symm

theorem consistent_start (data : K → D) : Consistent calls (.start data : Shared T K D κ ρ) where
  reached := .start
  phase _ := rfl
  guards _ := rfl
  copy _ _ _ h := nomatch h

inductive Effect (calls : Calls K D κ ρ) (s : Shared T K D κ ρ) :
    Option (Event T κ ρ) → Shared T K D κ ρ → Prop
  | enter {t : T} {c : κ} {cells : System T K} (hs : s.stage t = .idle) :
    Effect calls s (some (.called t c)) (s.become t (.entered c) cells)
  | borrow {t : T} {c : κ} {cells : System T K} (hs : s.stage t = .entered c) :
    Effect calls s none (s.become t (.borrowed c) cells)
  | view {t : T} {c : κ} (hs : s.stage t = .borrowed c) :
    Effect calls s none (s.become t (.viewed c (s.data (calls.cell c))) s.cells)
  | write {t : T} {c : κ} (hs : s.stage t = .viewed c (s.data (calls.cell c))) :
    Effect calls s (some (.applied t c (calls.step c s.data).1))
      { s.become t (.written c (calls.step c s.data).1) s.cells with
        data := (calls.step c s.data).2 }
  | drop {t : T} {c : κ} {r : ρ} {cells : System T K} (hs : s.stage t = .written c r) :
    Effect calls s none (s.become t (.leaving c r) cells)
  | leave {t : T} {c : κ} {r : ρ} {cells : System T K} (hs : s.stage t = .leaving c r) :
    Effect calls s (some (.returned t r)) (s.become t .idle cells)

theorem Consistent.enter (h : Consistent calls s)
    (hm : s.move calls (.enter t c) = some (e, s')) : Consistent calls s' ∧ Effect calls s e s' := by
  simp only [Shared.move] at hm
  split at hm
  · next hs =>
    split at hm
    · next x hstep =>
      cases hm
      refine ⟨?_, .enter hs⟩
      obtain ⟨o, cells⟩ := x
      obtain ⟨-, state, -, rfl⟩ := acquire_inv hstep
      have hcount := h.guards t
      rw [hs] at hcount
      apply h.become (.act h.reached (a := .acquire t _ _) trivial hstep)
      · intro u hu
        simp [hu]
      · exact ⟨state, Function.update_self ..⟩
      · exact fun _ _ => rfl
      · exact hcount
      · exact fun _ _ h => nomatch h
    · cases hm
  · cases hm

theorem Consistent.borrow (h : Consistent calls s)
    (hm : s.move calls (.borrow t) = some (e, s')) : Consistent calls s' ∧ Effect calls s e s' := by
  simp only [Shared.move] at hm
  split at hm
  · next c hs =>
    have hphase := h.phase t
    have hcount := h.guards t
    rw [hs] at hphase hcount
    obtain ⟨state, hphase⟩ := hphase
    split at hm
    · next cells hstep =>
      cases hm
      refine ⟨?_, .borrow hs⟩
      have hreached := CellGuards.Reached.act h.reached (a := .borrow t) trivial hstep
      obtain ⟨cell, kind, state', hphase', ⟨flag, -, -, rfl⟩ | ⟨-, ho, -⟩⟩ := borrow_inv hstep
      · apply h.become hreached
        · intro u hu
          simp [hu]
        · exact Function.update_self ..
        · intro u hu
          simp [Ne.symm hu]
        · simpa [Stage.guards] using hcount
        · exact fun _ _ h => nomatch h
      · cases ho
    · next cells hstep =>
      -- a panic needs a guard of this thread, which has none before its borrow
      have hnone := (panicked_iff hphase).mp ⟨_, hstep⟩
      obtain ⟨-, g, hg, howner, -⟩ := (h.balanced.panics hphase).mp hnone
      have hpos : 0 < s.cells.live.countP fun g => g.owner = t :=
        List.countP_pos_iff.mpr ⟨g, hg, by simpa using howner⟩
      rw [hcount] at hpos
      cases hpos
    · cases hm
  · cases hm

theorem Consistent.view (h : Consistent calls s)
    (hm : s.move calls (.view t) = some (e, s')) : Consistent calls s' ∧ Effect calls s e s' := by
  simp only [Shared.move] at hm
  split at hm
  · next c hs =>
    cases hm
    refine ⟨?_, .view hs⟩
    have hself := h.phase t
    have hcount := h.guards t
    rw [hs] at hself hcount
    refine h.become h.reached (fun _ _ => rfl) hself (fun _ _ => rfl) hcount ?_
    intro c' copy' hcopy
    cases hcopy
    rfl
  · cases hm

theorem Consistent.write (h : Consistent calls s)
    (hm : s.move calls (.write t) = some (e, s')) : Consistent calls s' ∧ Effect calls s e s' := by
  simp only [Shared.move] at hm
  split at hm
  · next c copy hs =>
    cases hm
    obtain rfl := h.copy t c copy hs
    exact ⟨h.wrote hs, .write hs⟩
  · cases hm

theorem Consistent.drop (h : Consistent calls s) {i : ℕ}
    (hm : s.move calls (.drop t i) = some (e, s')) : Consistent calls s' ∧ Effect calls s e s' := by
  simp only [Shared.move] at hm
  split at hm
  · next c r hs =>
    split at hm
    · next g hg =>
      split at hm
      · next howner =>
        subst howner
        split at hm
        · next x hstep =>
          cases hm
          refine ⟨?_, .drop hs⟩
          obtain ⟨o, cells⟩ := x
          have hreached := CellGuards.Reached.act h.reached (h.careful hg) hstep
          obtain ⟨g', hg', -, -, rfl⟩ := drop_inv hstep
          cases hg.symm.trans hg'
          have hcount (u : T) := (perm_drop hg).countP_eq fun g => decide (g.owner = u)
          have hself := h.guards g.owner
          rw [hs] at hself
          apply h.become hreached
          · intro u hu
            simp [hu]
          · exact ⟨g.state, Function.update_self ..⟩
          · intro u hu
            rw [hcount u]
            simp [Ne.symm hu]
          · rw [hcount g.owner, List.countP_cons_of_pos (by simp)] at hself
            exact Nat.succ.inj hself
          · exact fun _ _ h => nomatch h
        · cases hm
      · cases hm
    · cases hm
  · cases hm

theorem Consistent.leave (h : Consistent calls s)
    (hm : s.move calls (.leave t) = some (e, s')) : Consistent calls s' ∧ Effect calls s e s' := by
  simp only [Shared.move] at hm
  split at hm
  · next c r hs =>
    split at hm
    · next x hstep =>
      cases hm
      refine ⟨?_, .leave hs⟩
      obtain ⟨o, cells⟩ := x
      obtain ⟨state, -, -, rfl⟩ := release_inv hstep
      have hcount := h.guards t
      rw [hs] at hcount
      apply h.become (.act h.reached (a := .release t) trivial hstep)
      · intro u hu
        simp [hu]
      · exact Function.update_self ..
      · exact fun _ _ => rfl
      · exact hcount
      · exact fun _ _ h => nomatch h
    · cases hm
  · cases hm

theorem Consistent.move (h : Consistent calls s) {m : Move T κ}
    (hm : s.move calls m = some (e, s')) : Consistent calls s' ∧ Effect calls s e s' := by
  cases m with
  | enter t c => exact h.enter hm
  | borrow t => exact h.borrow hm
  | view t => exact h.view hm
  | write t => exact h.write hm
  | drop t i => exact h.drop hm
  | leave t => exact h.leave hm

omit [DecidableEq T] in
theorem log_append (es : List (Event T κ ρ)) (e : Event T κ ρ) :
    log (es ++ [e]) = log es ++ e.entry.toList := by
  rw [log, List.filterMap_append]
  cases h : e.entry <;> simp [log, h]

/-- The events of a thread end with what it has begun. -/
def Orderly (t : T) (es : List (Event T κ ρ)) (stage : Stage D κ ρ) : Prop :=
  ∃ xs : List (κ × ρ),
    (es.filter fun e => e.thread = t) = xs.flatMap (whole t) ++ stage.begun t

theorem Orderly.silent {stage stage' : Stage D κ ρ} (h : Orderly t es stage)
    (hbegun : stage'.begun t = stage.begun t) : Orderly t es stage' := by
  obtain ⟨xs, hxs⟩ := h
  exact ⟨xs, hxs.trans (by rw [hbegun])⟩

theorem Orderly.own {stage stage' : Stage D κ ρ} {e : Event T κ ρ} (h : Orderly t es stage)
    (he : e.thread = t) (hbegun : stage'.begun t = stage.begun t ++ [e]) :
    Orderly t (es ++ [e]) stage' := by
  obtain ⟨xs, hxs⟩ := h
  refine ⟨xs, ?_⟩
  rw [List.filter_append, hxs, hbegun, List.append_assoc]
  simp [he]

theorem Orderly.other {stage : Stage D κ ρ} {e : Event T κ ρ} (h : Orderly t es stage)
    (he : e.thread ≠ t) : Orderly t (es ++ [e]) stage := by
  obtain ⟨xs, hxs⟩ := h
  refine ⟨xs, ?_⟩
  rw [List.filter_append, hxs]
  simp [he]

theorem Orderly.returned {stage : Stage D κ ρ} (h : Orderly t es stage)
    (hbegun : stage.begun t = [.called t c, .applied t c r]) :
    Orderly t (es ++ [.returned t r]) (.idle : Stage D κ ρ) := by
  obtain ⟨xs, hxs⟩ := h
  refine ⟨xs ++ [(c, r)], ?_⟩
  rw [List.filter_append, hxs, hbegun]
  simp [whole, Event.thread, Stage.begun]

/-- The calls on other cells make no difference to a cell. -/
theorem replays_cell (cell : K) {xs : List (κ × ρ)} {data : K → D}
    (h : Replays calls.step data xs) :
    Replays calls.perform (data cell) (xs.filter fun x => calls.cell x.1 = cell) ∧
      replay calls.step data xs cell =
        replay calls.perform (data cell) (xs.filter fun x => calls.cell x.1 = cell) := by
  induction xs generalizing data with
  | nil => exact ⟨rfl, rfl⟩
  | cons x xs ih =>
    obtain ⟨hx, hxs⟩ := replays_cons.mp h
    have hrest := ih hxs
    by_cases hcell : calls.cell x.1 = cell
    · subst hcell
      simpa [Calls.step, hx] using hrest
    · simpa [Calls.step, hcell, Ne.symm hcell] using hrest

/-- Each cell has gone through its own calls. -/
theorem Sequential.onCell (h : Sequential calls data es s) (cell : K) :
    Replays calls.perform (data cell) ((logOf calls cell es).map Prod.snd) ∧
      s.data cell = replay calls.perform (data cell) ((logOf calls cell es).map Prod.snd) := by
  have hcell := replays_cell cell h.replies
  rw [List.filter_map, ← h.data] at hcell
  exact hcell

theorem sequential_start (data : K → D) :
    Sequential calls data [] (.start data : Shared T K D κ ρ) where
  replies := rfl
  data := rfl
  calls _ := ⟨[], rfl⟩
  quiet _ := List.not_mem_nil

/-- The thread of the event moves on, and the others stay. -/
theorem Sequential.orderly (h : Sequential calls data es s) {e : Event T κ ρ}
    {stage stage' : Stage D κ ρ} (cells : System T K) (hs : s.stage t = stage) (he : e.thread = t)
    (hself : Orderly t es stage → Orderly t (es ++ [e]) stage') (u : T) :
    Orderly u (es ++ [e]) ((s.become t stage' cells).stage u) := by
  rw [become_stage]
  split
  · next heq =>
    subst heq
    exact hself (hs ▸ h.calls u)
  · next hne => exact Orderly.other (h.calls u) fun heq => hne (heq.symm.trans he)

/-- An event other than a write leaves the log alone. -/
theorem Sequential.extend (h : Sequential calls data es s) (e : Event T κ ρ)
    {stage stage' : Stage D κ ρ} (cells : System T K) (hs : s.stage t = stage) (he : e.thread = t)
    (hentry : e.entry = none) (hquiet : e ≠ .panicked t)
    (hself : Orderly t es stage → Orderly t (es ++ [e]) stage') :
    Sequential calls data (es ++ [e]) (s.become t stage' cells) := by
  have hlog : log (es ++ [e]) = log es := by simp [log_append, hentry]
  constructor
  · rw [hlog]
    exact h.replies
  · rw [hlog, become_data]
    exact h.data
  · exact h.orderly cells hs he hself
  · intro u hu
    rcases List.mem_append.mp hu with hu | hu
    · exact h.quiet u hu
    · obtain rfl := List.mem_singleton.mp hu
      subst he
      exact hquiet rfl

theorem Sequential.silent (h : Sequential calls data es s) {stage stage' : Stage D κ ρ}
    (cells : System T K) (hs : s.stage t = stage) (hbegun : stage'.begun t = stage.begun t) :
    Sequential calls data es (s.become t stage' cells) := by
  constructor
  · exact h.replies
  · exact h.data
  · intro u
    rw [become_stage]
    split
    · next heq =>
      subst heq
      exact Orderly.silent (h.calls u) (by rw [hbegun, hs])
    · exact h.calls u
  · exact h.quiet

theorem Sequential.effect (h : Sequential calls data es s) (he : Effect calls s e s') :
    Sequential calls data (es ++ e.toList) s' := by
  cases he with
  | @enter t c cells hs =>
    exact h.extend (.called t c) cells hs rfl rfl (by simp) fun hself => hself.own rfl rfl
  | @borrow t c cells hs =>
    rw [Option.toList_none, List.append_nil]
    exact h.silent cells hs rfl
  | @view t c hs =>
    rw [Option.toList_none, List.append_nil]
    exact h.silent s.cells hs rfl
  | @write t c hs =>
    have hlog : log (es ++ [.applied t c (calls.step c s.data).1]) =
        log es ++ [(t, c, (calls.step c s.data).1)] := log_append es _
    constructor
    · rw [Option.toList_some, hlog, List.map_append, replays_append, ← h.data]
      exact ⟨h.replies, rfl⟩
    · rw [Option.toList_some, hlog, List.map_append, replay_append, ← h.data]
      rfl
    · exact h.orderly (e := .applied t c _) s.cells hs rfl fun hself => hself.own rfl rfl
    · intro u hu
      rcases List.mem_append.mp hu with hu | hu
      · exact h.quiet u hu
      · cases List.mem_singleton.mp hu
  | @drop t c r cells hs =>
    rw [Option.toList_none, List.append_nil]
    exact h.silent cells hs rfl
  | @leave t c r cells hs =>
    exact h.extend (.returned t r) cells hs rfl rfl (by simp) fun hself => hself.returned rfl

theorem consistent_of_reached (h : Reached calls data es s) : Consistent calls s := by
  induction h with
  | start => exact consistent_start data
  | move _ m hm ih => exact (ih.move hm).1

/-- What the threads do in any order is a sequential run of their calls. -/
theorem sequential_of_reached (h : Reached calls data es s) : Sequential calls data es s := by
  induction h with
  | start => exact sequential_start data
  | move hs m hm ih => exact ih.effect ((consistent_of_reached hs).move hm).2

end Chton.SharedCells
