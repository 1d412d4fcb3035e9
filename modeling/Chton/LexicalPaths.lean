import Mathlib.Data.List.Basic
import Mathlib.Data.List.DropRight
import Mathlib.Data.List.Induction
import Mathlib.Data.Nat.Notation
import Mathlib.Tactic.Tauto

/-!
# Paths and the locations they name

A path is a string of components with separators between them. From a starting location
the components lead on name by name: a name goes down, `..` goes up to the parent, `.` and
an empty component stay. A path that never goes up more often than it went down names a
location below its start; a location that was left can only be entered again by its name.
-/

namespace Chton.LexicalPaths

abbrev Name := List Char

/-- A location: the names that lead to it from the root of the file system. -/
abbrev Location := List Name

/-- The first component and the ones after it. -/
def split : List Char → Name × List Name
  | [] => ([], [])
  | c :: cs => if c = '/' then ([], (split cs).1 :: (split cs).2) else
      (c :: (split cs).1, (split cs).2)

def components (path : List Char) : List Name := (split path).1 :: (split path).2

def assemble : List Name → List Char
  | [] => []
  | [n] => n
  | n :: m :: ns => n ++ '/' :: assemble (m :: ns)

def isAbsolute (path : List Char) : Prop := path.head? = some '/'

instance (path : List Char) : Decidable (isAbsolute path) :=
  inferInstanceAs (Decidable (path.head? = some '/'))

/-- `PathBuf::join`: an absolute path replaces the base. -/
def join (base path : List Char) : List Char :=
  if isAbsolute path then path else
  if base = [] ∨ base.getLast? = some '/' then base ++ path else base ++ '/' :: path

def stay (n : Name) : Prop := n = [] ∨ n = ['.']

abbrev parentName : Name := ['.', '.']

instance (n : Name) : Decidable (stay n) := inferInstanceAs (Decidable (_ ∨ _))

/-- A component that goes down to a child. -/
def IsName (n : Name) : Prop := ¬ stay n ∧ n ≠ parentName

instance (n : Name) : Decidable (IsName n) := inferInstanceAs (Decidable (_ ∧ _))

def enter (l : Location) (n : Name) : Location :=
  if stay n then l else if n = parentName then l.dropLast else l ++ [n]

def walk (l : Location) (ns : List Name) : Location := ns.foldl enter l

/-- Where a path starts: at the root of the file system or in the current directory. -/
def startOf (cwd : Location) (path : List Char) : Location := if isAbsolute path then [] else cwd

/-- The location a path names, lexically normalised. -/
def location (cwd : Location) (path : List Char) : Location :=
  walk (startOf cwd path) (components path)

theorem split_append (a b : List Char) :
    split (a ++ '/' :: b) = ((split a).1, (split a).2 ++ components b) := by
  induction a with
  | nil => rfl
  | cons c a ih =>
    rw [List.cons_append, split, split, ih]
    split <;> rfl

theorem components_append (a b : List Char) :
    components (a ++ '/' :: b) = components a ++ components b := by
  rw [components, split_append]
  rfl

theorem components_ne_nil (path : List Char) : components path ≠ [] := List.cons_ne_nil _ _

theorem components_of_name {n : Name} (h : '/' ∉ n) : components n = [n] := by
  induction n with
  | nil => rfl
  | cons c n ih =>
    obtain ⟨hc, hn⟩ := not_or.mp (mt List.mem_cons.mpr h)
    have htail := ih hn
    simp only [components, List.cons.injEq] at htail
    simp only [components, split, if_neg (Ne.symm hc), htail.1, htail.2]

theorem assemble_cons {n : Name} {ns : List Name} (h : ns ≠ []) :
    assemble (n :: ns) = n ++ '/' :: assemble ns := by
  cases ns with
  | nil => exact absurd rfl h
  | cons m ns => rfl

theorem assemble_components (path : List Char) : assemble (components path) = path := by
  induction path with
  | nil => rfl
  | cons c path ih =>
    by_cases hc : c = '/'
    · have hsplit : components (c :: path) = [] :: components path := by
        simp only [components, split, if_pos hc]
      rw [hsplit, assemble_cons (components_ne_nil path), ih, hc, List.nil_append]
    · have hsplit : components (c :: path) = (c :: (split path).1) :: (split path).2 := by
        simp only [components, split, if_neg hc]
      rw [hsplit]
      rw [components] at ih
      cases hrest : (split path).2 with
      | nil =>
        rw [hrest] at ih
        exact congrArg (c :: ·) ih
      | cons m ns =>
        rw [hrest] at ih
        exact congrArg (c :: ·) ih

theorem components_injective : Function.Injective components := by
  intro p q h
  rw [← assemble_components p, ← assemble_components q, h]

theorem assemble_concat {ns : List Name} (h : ns ≠ []) (n : Name) :
    assemble (ns ++ [n]) = assemble ns ++ '/' :: n := by
  induction ns with
  | nil => exact absurd rfl h
  | cons m ns ih =>
    cases ns with
    | nil => rfl
    | cons k ns =>
      rw [List.cons_append, assemble_cons (List.append_ne_nil_of_left_ne_nil (List.cons_ne_nil k ns) _),
        ih (List.cons_ne_nil k ns), assemble_cons (List.cons_ne_nil k ns), List.append_assoc,
        List.cons_append]

/-- A path that does not end with a separator has a last component. -/
theorem components_rdropWhile {path : List Char} (hpath : path ≠ [])
    (h : path.getLast? ≠ some '/') :
    (components path).rdropWhile (· = []) = components path := by
  rw [List.rdropWhile_eq_self_iff]
  intro hne hlast
  rw [decide_eq_true_eq] at hlast
  have hsplit := List.dropLast_append_getLast hne
  have hassemble := assemble_components path
  rw [← hsplit, hlast] at hassemble
  by_cases hinit : (components path).dropLast = []
  · rw [hinit] at hassemble
    exact hpath hassemble.symm
  · rw [assemble_concat hinit] at hassemble
    rw [← hassemble, List.getLast?_concat] at h
    exact h rfl

theorem not_mem_of_mem_components {path : List Char} {n : Name} (h : n ∈ components path) :
    '/' ∉ n := by
  induction path generalizing n with
  | nil =>
    cases List.mem_singleton.mp h
    exact List.not_mem_nil
  | cons c path ih =>
    have hsplit : ∀ m ∈ (split path).1 :: (split path).2, '/' ∉ m := fun m hm => ih hm
    obtain ⟨hfirst, hrest⟩ := List.forall_mem_cons.mp hsplit
    rw [components, split] at h
    split at h
    · cases List.mem_cons.mp h with
      | inl hn =>
        rw [hn]
        exact List.not_mem_nil
      | inr hn => exact hsplit n hn
    · next hc =>
      cases List.mem_cons.mp h with
      | inl hn =>
        rw [hn]
        intro hmem
        cases List.mem_cons.mp hmem with
        | inl heq => exact hc heq.symm
        | inr hmem => exact hfirst hmem
      | inr hn => exact hrest n hn

theorem length_le_of_mem_components {path : List Char} {n : Name} (h : n ∈ components path) :
    n.length ≤ path.length := by
  induction path generalizing n with
  | nil =>
    cases List.mem_singleton.mp h
    exact Nat.le_refl 0
  | cons c path ih =>
    have hsplit : ∀ m ∈ (split path).1 :: (split path).2, m.length ≤ path.length := fun m hm => ih hm
    obtain ⟨hfirst, hrest⟩ := List.forall_mem_cons.mp hsplit
    rw [components, split] at h
    split at h
    · cases List.mem_cons.mp h with
      | inl hn =>
        rw [hn]
        exact Nat.zero_le _
      | inr hn => exact Nat.le_succ_of_le (hsplit n hn)
    · cases List.mem_cons.mp h with
      | inl hn =>
        rw [hn]
        exact Nat.succ_le_succ hfirst
      | inr hn => exact Nat.le_succ_of_le (hrest n hn)

variable {l : Location} {n : Name} {ns ms : List Name}

@[simp] theorem enter_stay (h : stay n) : enter l n = l := if_pos h

@[simp] theorem enter_parent : enter l parentName = l.dropLast := rfl

@[simp] theorem enter_name (h : IsName n) : enter l n = l ++ [n] := by
  rw [enter, if_neg h.1, if_neg h.2]

theorem walk_append : walk l (ns ++ ms) = walk (walk l ns) ms := List.foldl_append

theorem walk_concat : walk l (ns ++ [n]) = enter (walk l ns) n := by
  rw [walk_append]
  rfl

theorem walk_names (h : ∀ n ∈ ns, IsName n) : walk l ns = l ++ ns := by
  induction ns generalizing l with
  | nil => exact (List.append_nil l).symm
  | cons n ns ih =>
    obtain ⟨hn, hns⟩ := List.forall_mem_cons.mp h
    rw [walk, List.foldl_cons, enter_name hn]
    exact (ih hns).trans (List.append_assoc l [n] ns)

theorem walk_filter : walk l (ns.filter fun n => ¬ stay n) = walk l ns := by
  induction ns generalizing l with
  | nil => rfl
  | cons n ns ih =>
    by_cases hn : stay n
    · rw [List.filter_cons_of_neg (by simpa using hn)]
      exact ih.trans (congrArg (walk · ns) (enter_stay hn).symm)
    · rw [List.filter_cons_of_pos (by simpa using hn)]
      exact ih

/-- A joined path starts at the base, unless it is absolute. -/
theorem location_join (cwd : Location) (base path : List Char) :
    location cwd (join base path) =
      walk (if isAbsolute path then [] else location cwd base) (components path) := by
  by_cases habs : isAbsolute path
  · rw [join, if_pos habs, if_pos habs, location, startOf, if_pos habs]
  rw [join, if_neg habs, if_neg habs]
  have hstart : ∀ tail : List Char, base ≠ [] →
      startOf cwd (base ++ tail) = startOf cwd base := by
    intro tail hne
    obtain ⟨c, cs, rfl⟩ := List.exists_cons_of_ne_nil hne
    rfl
  by_cases hnil : base = []
  · -- an empty base names the current directory
    rw [if_pos (.inl hnil), hnil, List.nil_append, location, startOf, if_neg habs]
    rfl
  by_cases hlast : base.getLast? = some '/'
  · obtain ⟨init, rfl⟩ := List.getLast?_eq_some_iff.mp hlast
    rw [if_pos (.inr hlast), location, hstart path hnil, List.append_assoc, List.singleton_append,
      components_append, walk_append, location, components_append, walk_append]
    rfl
  · rw [if_neg (not_or.mpr ⟨hnil, hlast⟩), location, hstart _ hnil, components_append, walk_append]
    rfl

/-- The path leads from the base through these names, and a further name is appended to it
after a separator. -/
structure Spelled (base : List Char) (ns : List Name) (path : List Char) : Prop where
  suffix : ∃ tail, path = base ++ tail ∧ tail.dropWhile (· = '/') = assemble ns
  open_end : path.getLast? ≠ some '/'

theorem assemble_ne_nil (hne : ns ≠ []) (h : ∀ n ∈ ns, IsName n) : assemble ns ≠ [] := by
  obtain ⟨n, ns, rfl⟩ := List.exists_cons_of_ne_nil hne
  have hn : n ≠ [] := fun hnil => (h n List.mem_cons_self).1 (.inl hnil)
  cases ns with
  | nil => exact hn
  | cons m ns => exact List.append_ne_nil_of_left_ne_nil hn _

theorem getLast?_name (hn : n ≠ []) (hslash : '/' ∉ n) (path : List Char) :
    (path ++ n).getLast? ≠ some '/' := by
  rw [List.getLast?_append_of_ne_nil _ hn]
  intro h
  exact hslash (List.mem_of_getLast? h)

/-- Appending a name after the part of a path that follows the separators. -/
theorem dropWhile_append_of_ne_nil {tail rest : List Char}
    (h : tail.dropWhile (· = '/') ≠ []) :
    (tail ++ rest).dropWhile (· = '/') = tail.dropWhile (· = '/') ++ rest := by
  rw [List.dropWhile_append, if_neg (by simpa using h)]

theorem Spelled.step {base path : List Char} (h : Spelled base ns path) (hne : ns ≠ [])
    (hns : ∀ n ∈ ns, IsName n) (hn : n ≠ []) (hslash : '/' ∉ n) :
    Spelled base (ns ++ [n]) (join path n) := by
  obtain ⟨tail, rfl, htail⟩ := h.suffix
  have hrelative : ¬ isAbsolute n := fun habs => hslash (List.mem_of_mem_head? habs)
  have hpath : base ++ tail ≠ [] := by
    intro hnil
    rw [(List.append_eq_nil_iff.mp hnil).2] at htail
    exact assemble_ne_nil hne hns htail.symm
  rw [join, if_neg hrelative, if_neg (not_or.mpr ⟨hpath, h.open_end⟩), List.append_assoc]
  constructor
  · refine ⟨_, rfl, ?_⟩
    rw [dropWhile_append_of_ne_nil (htail ▸ assemble_ne_nil hne hns), htail, assemble_concat hne]
  · rw [← List.append_assoc, List.append_cons]
    exact getLast?_name hn hslash _

theorem Spelled.walk {base path : List Char} (h : Spelled base ns path) (hne : ns ≠ [])
    (hall : ∀ n ∈ ns ++ ms, IsName n ∧ '/' ∉ n) :
    Spelled base (ns ++ ms) (ms.foldl join path) := by
  induction ms generalizing ns path with
  | nil =>
    rw [List.append_nil]
    exact h
  | cons n ms ih =>
    have hn := hall n (List.mem_append_right ns List.mem_cons_self)
    have hstep := h.step hne (fun m hm => (hall m (List.mem_append_left _ hm)).1)
      (fun hnil => hn.1.1 (.inl hnil)) hn.2
    rw [List.append_cons] at hall ⊢
    exact ih hstep (List.append_ne_nil_of_right_ne_nil ns (List.cons_ne_nil n [])) hall

/-- What a join adds to its base. -/
theorem join_eq (base : List Char) {path : List Char} (h : ¬ isAbsolute path) :
    ∃ tail, join base path = base ++ tail ∧ (tail = path ∨ tail = '/' :: path) := by
  rw [join, if_neg h]
  split
  · exact ⟨path, rfl, .inl rfl⟩
  · exact ⟨'/' :: path, rfl, .inr rfl⟩

def Queryable (path : List Char) : Prop :=
  ∃ ns, (∀ n ∈ ns, IsName n) ∧ (components path = ns ∨ components path = ns ++ [[]])

def namesOf (path : List Char) : List Name := (components path).filter fun n => ¬ stay n

theorem namesOf_eq {path : List Char} (hns : ∀ n ∈ ns, IsName n)
    (h : components path = ns ∨ components path = ns ++ [[]]) : namesOf path = ns := by
  have hkeep : ns.filter (fun n => ¬ stay n) = ns := by
    apply List.filter_eq_self.mpr
    intro n hn
    simpa using (hns n hn).1
  cases h with
  | inl h => rw [namesOf, h, hkeep]
  | inr h =>
    rw [namesOf, h, List.filter_append, hkeep, List.filter_cons_of_neg (by simp [stay]),
      List.filter_nil, List.append_nil]

theorem Queryable.relative {path : List Char} (h : Queryable path) : ¬ isAbsolute path := by
  obtain ⟨ns, hns, hpath⟩ := h
  intro habs
  cases path with
  | nil => exact nomatch habs
  | cons c path =>
    have hc : c = '/' := Option.some.inj habs
    have hsplit : components (c :: path) = [] :: components path := by
      simp only [components, split, if_pos hc]
    obtain ⟨m, ms, hms⟩ := List.exists_cons_of_ne_nil (components_ne_nil path)
    rw [hsplit, hms] at hpath
    -- the component before the leading separator is empty
    have hempty : ([] : Name) ∈ ns := by
      cases hpath with
      | inl hpath =>
        rw [← hpath]
        exact List.mem_cons_self
      | inr hpath =>
        cases ns with
        | nil => exact nomatch hpath
        | cons k ns =>
          rw [List.cons_append, List.cons.injEq] at hpath
          rw [← hpath.1]
          exact List.mem_cons_self
    exact (hns [] hempty).1 (.inl rfl)

theorem dropWhile_of_relative {path tail : List Char} (h : ¬ isAbsolute path)
    (htail : tail = path ∨ tail = '/' :: path) : tail.dropWhile (· = '/') = path := by
  have hpath : path.dropWhile (· = '/') = path := by
    cases path with
    | nil => rfl
    | cons c path => exact List.dropWhile_cons_of_neg (by simpa [isAbsolute] using h)
  cases htail with
  | inl heq => rw [heq, hpath]
  | inr heq => rw [heq, List.dropWhile_cons_of_pos (by simp), hpath]

theorem join_ends (base : List Char) {path front last : List Char} (h : ¬ isAbsolute path)
    (hpath : path = front ++ last) : ∃ start, join base path = start ++ last := by
  obtain ⟨tail, hjoin, htail⟩ := join_eq base h
  rw [hjoin]
  rcases htail with heq | heq
  · exact ⟨base ++ front, by rw [heq, hpath, List.append_assoc]⟩
  · exact ⟨base ++ '/' :: front, by rw [heq, hpath]; simp⟩

theorem assemble_ends (init : List Name) (last : Name) :
    ∃ front, assemble (init ++ [last]) = front ++ last := by
  by_cases hinit : init = []
  · exact ⟨[], by rw [hinit]; rfl⟩
  · exact ⟨assemble init ++ ['/'], by rw [assemble_concat hinit]; simp⟩

/-- A path that ends with a separator still does so when it is joined. -/
theorem join_closed (base : List Char) {path : List Char} (h : ¬ isAbsolute path)
    (hpath : path = assemble (ns ++ [[]])) (hfull : join base path ≠ []) :
    (join base path).getLast? = some '/' := by
  by_cases hne : ns = []
  · -- the base itself, closed by a separator
    have hnil : path = [] := by rw [hpath, hne]; rfl
    rw [hnil] at hfull ⊢
    rw [join, if_neg (show ¬ isAbsolute [] from fun h => nomatch h)] at hfull ⊢
    split at hfull
    · next hbase =>
      rw [List.append_nil] at hfull
      rw [if_pos hbase, List.append_nil]
      exact hbase.resolve_left hfull
    · next hbase => rw [if_neg hbase, List.getLast?_concat]
  · rw [assemble_concat hne] at hpath
    obtain ⟨start, hstart⟩ := join_ends base h hpath
    rw [hstart, List.getLast?_concat]

/-- The path of a child of the directory that a joined path names. -/
theorem spelled_child (base : List Char) {path : List Char} (h : Queryable path) (hfull : join base path ≠ [])
    (hn : IsName n) (hslash : '/' ∉ n) :
    Spelled base (namesOf path ++ [n]) (join (join base path) n) := by
  have hn' : n ≠ [] := fun hnil => hn.1 (.inl hnil)
  have hrelative := h.relative
  obtain ⟨ns, hns, hpath⟩ := h
  rw [namesOf_eq hns hpath]
  obtain ⟨tail, hjoin, htail⟩ := join_eq base hrelative
  have hdrop := dropWhile_of_relative hrelative htail
  cases hpath with
  | inl hpath =>
    have hne : ns ≠ [] := hpath ▸ components_ne_nil path
    have hassemble : path = assemble ns := by rw [← hpath, assemble_components]
    apply Spelled.step _ hne hns hn' hslash
    refine ⟨⟨tail, hjoin, hdrop.trans hassemble⟩, ?_⟩
    -- the path ends with its last name
    obtain ⟨init, last, rfl⟩ : ∃ init last, ns = init ++ [last] :=
      ⟨_, _, (List.dropLast_append_getLast hne).symm⟩
    have hlast : last ∈ components path := by
      rw [hpath]
      exact List.mem_append_right _ List.mem_cons_self
    obtain ⟨front, hfront⟩ := assemble_ends init last
    obtain ⟨start, hstart⟩ := join_ends base hrelative (hassemble.trans hfront)
    rw [hstart]
    refine getLast?_name (fun hnil => ?_) (not_mem_of_mem_components hlast) start
    exact (hns last (List.mem_append_right _ List.mem_cons_self)).1 (.inl hnil)
  | inr hpath =>
    have hassemble : path = assemble (ns ++ [[]]) := by rw [← hpath, assemble_components]
    have hchild : ¬ isAbsolute n := fun habs => hslash (List.mem_of_mem_head? habs)
    rw [join, if_neg hchild, if_pos (.inr (join_closed base hrelative hassemble hfull))]
    constructor
    · refine ⟨tail ++ n, by rw [hjoin, List.append_assoc], ?_⟩
      by_cases hne : ns = []
      · have hnil : path = [] := by rw [hassemble, hne]; rfl
        rw [hnil] at htail
        rw [hne]
        rcases htail with heq | heq
        · rw [heq]
          exact dropWhile_of_relative hchild (.inl rfl)
        · rw [heq]
          exact dropWhile_of_relative hchild (.inr rfl)
      · rw [assemble_concat hne] at hassemble
        have hpath' : path ≠ [] := by
          rw [hassemble]
          exact List.append_ne_nil_of_right_ne_nil _ (List.cons_ne_nil _ _)
        rw [dropWhile_append_of_ne_nil (hdrop ▸ hpath'), hdrop, assemble_concat hne, hassemble,
          List.append_assoc]
        rfl
    · exact getLast?_name hn' hslash _

/-- No beginning of the components goes up more often than down. -/
def Shallow (ns : List Name) : Prop :=
  ∀ ms, ms <+: ns → ms.count parentName ≤ ms.countP fun n => IsName n

theorem Shallow.init (h : Shallow (ns ++ [n])) : Shallow ns :=
  fun ms hms => h ms (hms.trans (List.prefix_append ns [n]))

theorem count_concat_stay (h : stay n) :
    (ns ++ [n]).count parentName = ns.count parentName ∧
    (ns ++ [n]).countP (fun n => IsName n) = ns.countP fun n => IsName n := by
  have hparent : n ≠ parentName := by
    rintro rfl
    cases h with
    | inl h => exact nomatch h
    | inr h => exact nomatch h
  have hname : ¬ IsName n := fun hn => hn.1 h
  constructor
  · rw [List.count_append, List.count_singleton, if_neg (by simpa using hparent), Nat.add_zero]
  · rw [List.countP_append, List.countP_singleton, if_neg (by simpa using hname), Nat.add_zero]

theorem count_concat_name (h : IsName n) :
    (ns ++ [n]).count parentName = ns.count parentName ∧
    (ns ++ [n]).countP (fun n => IsName n) = (ns.countP fun n => IsName n) + 1 := by
  constructor
  · rw [List.count_append, List.count_singleton, if_neg (by simpa using h.2), Nat.add_zero]
  · rw [List.countP_append, List.countP_singleton, if_pos (by simpa using h)]

theorem count_concat_parent :
    (ns ++ [parentName]).count parentName = ns.count parentName + 1 ∧
    (ns ++ [parentName]).countP (fun n => IsName n) = ns.countP fun n => IsName n := by
  constructor
  · rw [List.count_append, List.count_singleton_self]
  · rw [List.countP_append, List.countP_singleton, if_neg (by decide), Nat.add_zero]

theorem component_cases (n : Name) : stay n ∨ n = parentName ∨ IsName n := by
  rw [IsName]
  tauto

/-- Shallow components never touch the start. -/
theorem walk_of_shallow (h : Shallow ns) : walk l ns = l ++ walk [] ns ∧
    (walk [] ns).length + ns.count parentName = ns.countP fun n => IsName n := by
  induction ns using List.reverseRecOn with
  | nil => exact ⟨(List.append_nil l).symm, rfl⟩
  | append_singleton ns n ih =>
    obtain ⟨hwalk, hlen⟩ := ih h.init
    rw [walk_concat, walk_concat]
    rcases component_cases n with hn | rfl | hn
    · rw [enter_stay hn, enter_stay hn, (count_concat_stay hn).1, (count_concat_stay hn).2]
      exact ⟨hwalk, hlen⟩
    · -- the step up undoes a step down that came before it
      have hup := h _ (List.prefix_refl _)
      rw [count_concat_parent.1, count_concat_parent.2] at hup
      have hne : walk [] ns ≠ [] := by
        intro hnil
        rw [hnil, List.length_nil] at hlen
        omega
      rw [count_concat_parent.1, count_concat_parent.2, enter_parent, enter_parent, hwalk,
        List.dropLast_append_of_ne_nil hne, List.length_dropLast]
      have hpos := List.length_pos_iff.mpr hne
      exact ⟨rfl, by omega⟩
    · rw [enter_name hn, enter_name hn, (count_concat_name hn).1, (count_concat_name hn).2, hwalk,
        List.append_assoc, List.length_append, List.length_singleton]
      exact ⟨rfl, by omega⟩

/-- A location that was left is not entered again without its name. -/
theorem head_of_enter {f : Name} (hf : n ≠ f) (h : (enter l n).head? = some f) :
    l.head? = some f := by
  rcases component_cases n with hn | rfl | hn
  · rwa [enter_stay hn] at h
  · rw [enter_parent] at h
    cases l with
    | nil => exact nomatch h
    | cons m l =>
      cases l with
      | nil => exact nomatch h
      | cons m' l => exact h
  · rw [enter_name hn] at h
    cases l with
    | nil => exact absurd (Option.some.inj h) hf
    | cons m l => exact h

theorem head_of_walk {f : Name} (hf : f ∉ ns) (h : (walk l ns).head? = some f) :
    l.head? = some f := by
  induction ns generalizing l with
  | nil => exact h
  | cons n ns ih =>
    obtain ⟨hn, hns⟩ := not_or.mp (mt List.mem_cons.mpr hf)
    exact head_of_enter (Ne.symm hn) (ih hns h)

/-- From a location with a fresh name only shallow components stay below it. -/
theorem shallow_of_head {f : Name} (hf : f ∉ ns) (h : (walk [f] ns).head? = some f) :
    Shallow ns := by
  induction ns using List.reverseRecOn with
  | nil =>
    intro ms hms
    rw [List.prefix_nil.mp hms]
    exact Nat.le_refl 0
  | append_singleton ns n ih =>
    obtain ⟨hns, hn⟩ := not_or.mp (mt List.mem_append.mpr hf)
    rw [walk_concat] at h
    have hinit := ih hns (head_of_enter (Ne.symm (mt List.mem_singleton.mpr hn)) h)
    obtain ⟨hwalk, hlen⟩ := walk_of_shallow (l := [f]) hinit
    intro ms hms
    cases List.prefix_concat_iff.mp hms with
    | inr hms => exact hinit ms hms
    | inl hms =>
      rw [hms]
      rcases component_cases n with hn' | rfl | hn'
      · rw [(count_concat_stay hn').1, (count_concat_stay hn').2]
        omega
      · rw [count_concat_parent.1, count_concat_parent.2]
        rw [hwalk, enter_parent] at h
        cases hrest : walk [] ns with
        | nil =>
          rw [hrest] at h
          exact nomatch h
        | cons m rest =>
          rw [hrest, List.length_cons] at hlen
          omega
      · rw [(count_concat_name hn').1, (count_concat_name hn').2]
        omega

end Chton.LexicalPaths
