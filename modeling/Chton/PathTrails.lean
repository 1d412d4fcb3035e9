import Chton.LexicalPaths
import Mathlib.Data.List.TakeWhile

/-!
# The ways that paths take

A path is followed component by component, and each location on its way must be a directory
before the next component is looked at. A way from the root of a tree passes everything above
a location before it comes to the location itself.
-/

namespace Chton.PathTrails
open LexicalPaths

/-- The locations that the components leave behind, the start first. -/
def way (l : Location) : List Name → List Location
  | [] => []
  | n :: ns => l :: way (enter l n) ns

/-- The locations that the components lead through, the last one included. -/
def trail (l : Location) (ns : List Name) : List Location := way l ns ++ [walk l ns]

variable {l c q : Location} {n : Name} {ns ms : List Name} {pre post : List Location}

theorem way_append : way l (ns ++ ms) = way l ns ++ way (walk l ns) ms := by
  induction ns generalizing l with
  | nil => rfl
  | cons n ns ih => exact congrArg (l :: ·) ih

theorem trail_append : trail l (ns ++ ms) = way l ns ++ trail (walk l ns) ms := by
  rw [trail, way_append, walk_append, List.append_assoc]
  rfl

theorem way_concat : way l (ns ++ [n]) = trail l ns := way_append

theorem trail_concat : trail l (ns ++ [n]) = trail l ns ++ [enter (walk l ns) n] := by
  rw [trail, way_concat, walk_concat]

theorem start_mem_trail : l ∈ trail l ns := by
  cases ns with
  | nil => exact List.mem_singleton_self l
  | cons n ns => exact List.mem_cons_self

theorem end_mem_trail : walk l ns ∈ trail l ns := List.mem_append_right _ (List.mem_singleton_self _)

theorem mem_trail_of_prefix (h : ms <+: ns) (hq : q ∈ trail l ms) : q ∈ trail l ns := by
  obtain ⟨rest, rfl⟩ := h
  rw [trail_append]
  rw [trail] at hq
  rcases List.mem_append.mp hq with hq | hq
  · exact List.mem_append_left _ hq
  · rw [List.mem_singleton.mp hq]
    exact List.mem_append_right _ start_mem_trail

/-- The part of a trail up to one of its locations is a trail. -/
theorem trail_split (h : trail l ns = pre ++ c :: post) :
    ∃ ms, ms <+: ns ∧ way l ms = pre ∧ walk l ms = c := by
  induction ns using List.reverseRecOn generalizing post with
  | nil =>
    obtain ⟨rfl, hc⟩ := List.append_eq_singleton_iff.mp h.symm |>.resolve_right fun h => nomatch h.2
    cases hc
    exact ⟨[], List.nil_prefix, rfl, rfl⟩
  | append_singleton ns n ih =>
    rcases List.eq_nil_or_concat post with rfl | ⟨post, last, rfl⟩
    · rw [trail] at h
      obtain ⟨hway, hwalk⟩ := List.append_inj' h rfl
      exact ⟨ns ++ [n], List.prefix_refl _, hway, List.singleton_inj.mp hwalk⟩
    · rw [trail_concat, List.concat_eq_append, ← List.cons_append, ← List.append_assoc] at h
      obtain ⟨ms, hms, hsplit⟩ := ih (List.append_inj' h rfl).1
      exact ⟨ms, hms.trans (List.prefix_append _ _), hsplit⟩

/-- A location of a trail is the end or on the way to it. -/
theorem trail_cases (h : trail l ns = pre ++ c :: post) :
    (pre = way l ns ∧ c = walk l ns ∧ post = []) ∨ ∃ rest, way l ns = pre ++ c :: rest := by
  rcases List.eq_nil_or_concat post with rfl | ⟨rest, last, rfl⟩
  · rw [trail] at h
    obtain ⟨hway, hwalk⟩ := List.append_inj' h rfl
    exact .inl ⟨hway.symm, (List.singleton_inj.mp hwalk).symm, rfl⟩
  · rw [trail, List.concat_eq_append, ← List.cons_append, ← List.append_assoc] at h
    exact .inr ⟨rest, (List.append_inj' h rfl).1⟩

/-- What lies above a location of a trail is on the trail or above its start. -/
theorem mem_trail_of_above (hc : c ∈ trail l ns) (hq : q <+: c) : q ∈ trail l ns ∨ q <+: l := by
  induction ns using List.reverseRecOn generalizing c with
  | nil =>
    rw [List.mem_singleton.mp hc] at hq
    exact .inr hq
  | append_singleton ns n ih =>
    rw [trail_concat] at hc ⊢
    have hbefore {c : Location} (hc : c ∈ trail l ns) (hq : q <+: c) :
        q ∈ trail l ns ++ [enter (walk l ns) n] ∨ q <+: l :=
      (ih hc hq).imp_left (List.mem_append_left _)
    rcases List.mem_append.mp hc with hc | hc
    · exact hbefore hc hq
    · rw [List.mem_singleton.mp hc] at hq
      rcases component_cases n with hn | rfl | hn
      · rw [enter_stay hn] at hq
        exact hbefore end_mem_trail hq
      · rw [enter_parent] at hq
        exact hbefore end_mem_trail (hq.trans (List.dropLast_prefix _))
      · rw [enter_name hn] at hq
        rcases List.prefix_concat_iff.mp hq with rfl | hq
        · rw [← enter_name hn]
          exact .inl (List.mem_append_right _ (List.mem_singleton_self _))
        · exact hbefore end_mem_trail hq

/-- A trail from the root comes to what lies above a location before it comes there. -/
theorem mem_before_of_above (h : trail [] ns = pre ++ c :: post) (hq : q <+: c) (hne : q ≠ c) :
    q ∈ pre := by
  obtain ⟨ms, -, rfl, rfl⟩ := trail_split h
  have hmem : q ∈ trail [] ms := by
    rcases mem_trail_of_above end_mem_trail hq with hmem | habove
    · exact hmem
    · rw [List.prefix_nil.mp habove]
      exact start_mem_trail
  rw [trail, List.mem_append, List.mem_singleton] at hmem
  exact hmem.resolve_right hne

/-- What lies above a part of a way lies on it. -/
theorem mem_of_above {q' : Location}
    (h : trail [] ns = pre ++ c :: post) (hq : q ∈ pre) (hbelow : q' <+: q) : q' ∈ pre := by
  obtain ⟨front, rest, rfl⟩ := List.append_of_mem hq
  by_cases heq : q' = q
  · rwa [heq]
  · have hsplit : trail [] ns = front ++ q :: (rest ++ c :: post) := by
      rw [h, List.append_assoc, List.cons_append]
    exact List.mem_append_left _ (mem_before_of_above hsplit hbelow heq)

theorem way_of_shallow (h : Shallow ns) : way l ns = (way [] ns).map (l ++ ·) := by
  induction ns using List.reverseRecOn with
  | nil => rfl
  | append_singleton ns n ih =>
    rw [way_concat, way_concat, trail, trail, ih h.init, (walk_of_shallow h.init).1, List.map_append]
    rfl

theorem trail_of_shallow (h : Shallow ns) : trail l ns = (trail [] ns).map (l ++ ·) := by
  rw [trail, trail, way_of_shallow h, (walk_of_shallow h).1, List.map_append]
  rfl

/-- The way of names is a chain of beginnings. -/
theorem mem_trail_names (h : ∀ n ∈ ns, IsName n) : q ∈ trail [] ns ↔ q <+: ns := by
  constructor
  · intro hq
    obtain ⟨pre, post, hsplit⟩ := List.append_of_mem hq
    obtain ⟨ms, hms, -, rfl⟩ := trail_split hsplit
    rwa [walk_names fun n hn => h n (hms.subset hn), List.nil_append]
  · intro hq
    have hwalk : walk [] q = q := walk_names fun n hn => h n (hq.subset hn)
    have hmem : walk [] q ∈ trail [] ns := mem_trail_of_prefix hq end_mem_trail
    rwa [hwalk] at hmem

theorem below_of_mem_trail (h : ∀ n ∈ ns, IsName n) (hq : q ∈ trail l ns) : q <+: l ++ ns := by
  obtain ⟨pre, post, hsplit⟩ := List.append_of_mem hq
  obtain ⟨ms, hms, -, rfl⟩ := trail_split hsplit
  rw [walk_names fun n hn => h n (hms.subset hn)]
  exact (List.prefix_append_right_inj l).mpr hms

theorem mem_trail_filter : q ∈ trail l (ns.filter fun n => ¬ stay n) ↔ q ∈ trail l ns := by
  induction ns generalizing l with
  | nil => rfl
  | cons n ns ih =>
    by_cases hn : stay n
    · rw [List.filter_cons_of_neg (by simpa using hn), ih]
      change _ ↔ q ∈ l :: trail (enter l n) ns
      rw [enter_stay hn, List.mem_cons]
      refine ⟨.inr, fun hq => hq.elim ?_ id⟩
      rintro rfl
      exact start_mem_trail
    · rw [List.filter_cons_of_pos (by simpa using hn)]
      change q ∈ l :: trail (enter l n) _ ↔ q ∈ l :: trail (enter l n) ns
      rw [List.mem_cons, List.mem_cons, ih]

theorem join_way (cwd : Location) (base : List Char) {path : List Char} (h : ¬ isAbsolute path) :
    ∃ front, components (join base path) = front ++ components path ∧
      startOf cwd (join base path) = startOf cwd base ∧
      walk (startOf cwd base) front = location cwd base ∧
      ∀ q ∈ way (startOf cwd base) front, q ∈ trail (startOf cwd base) (components base) := by
  have hstart {tail : List Char} (hne : base ≠ []) : startOf cwd (base ++ tail) = startOf cwd base := by
    obtain ⟨c, cs, rfl⟩ := List.exists_cons_of_ne_nil hne
    rfl
  by_cases hnil : base = []
  · -- an empty base names the current directory
    refine ⟨[], ?_, ?_, ?_, fun q hq => nomatch hq⟩
    · rw [join, if_neg h, if_pos (.inl hnil), hnil]
      rfl
    · rw [join, if_neg h, if_pos (.inl hnil), hnil, List.nil_append, startOf, if_neg h]
      rfl
    · rw [hnil]
      rfl
  by_cases hlast : base.getLast? = some '/'
  · obtain ⟨init, rfl⟩ := List.getLast?_eq_some_iff.mp hlast
    have hbase : components (init ++ ['/']) = components init ++ [[]] := components_append init []
    refine ⟨components init, ?_, ?_, ?_, ?_⟩
    · rw [join, if_neg h, if_pos (.inr hlast), List.append_assoc, List.singleton_append,
        components_append]
    · rw [join, if_neg h, if_pos (.inr hlast), hstart hnil]
    · rw [location, hbase, walk_concat, enter_stay (.inl rfl)]
    · intro q hq
      rw [hbase, trail_append]
      exact List.mem_append_left _ hq
  · have hjoin : join base path = base ++ '/' :: path := by
      rw [join, if_neg h, if_neg (not_or.mpr ⟨hnil, hlast⟩)]
    refine ⟨components base, ?_, ?_, rfl, fun q hq => List.mem_append_left _ hq⟩
    · rw [hjoin, components_append]
    · rw [hjoin, hstart hnil]

/-- A joined path with a last name does not end with a separator. -/
theorem join_open {base path : List Char} (h : ¬ isAbsolute path)
    (hpath : components path = ns ++ [n]) (hn : n ≠ []) : (join base path).getLast? ≠ some '/' := by
  intro hlast
  obtain ⟨init, hinit⟩ := List.getLast?_eq_some_iff.mp hlast
  obtain ⟨front, hsplit, -⟩ := join_way [] base h
  have hcomponents : components (init ++ ['/']) = components init ++ [[]] := components_append init []
  rw [hinit, hcomponents, hpath, ← List.append_assoc] at hsplit
  exact hn (List.singleton_inj.mp (List.append_inj' hsplit rfl).2).symm

/-- What is not in the first part of a list splits the second. -/
theorem split_after {front rest : List Location} (h : front ++ rest = pre ++ c :: post)
    (hc : c ∉ front) : ∃ pre', pre = front ++ pre' ∧ rest = pre' ++ c :: post := by
  rcases List.append_eq_append_iff.mp h with ⟨pre', rfl, hrest⟩ | ⟨tail, rfl, htail⟩
  · exact ⟨pre', rfl, hrest⟩
  · cases tail with
    | nil => exact ⟨[], by simp, htail.symm⟩
    | cons d tail =>
      cases htail
      exact absurd (List.mem_append_right _ List.mem_cons_self) hc

/-- What lies below a location comes after it. -/
theorem notMem_takeWhile_of_below (hq : q <+: c) (hne : q ≠ c) :
    c ∉ (trail [] ns).takeWhile (· ≠ q) := by
  intro hc
  obtain ⟨pre, post, hsplit⟩ := List.append_of_mem hc
  have htrail : trail [] ns = pre ++ c :: (post ++ (trail [] ns).dropWhile (· ≠ q)) := by
    rw [← List.cons_append, ← List.append_assoc, ← hsplit, List.takeWhile_append_dropWhile]
  have hbefore : q ∈ (trail [] ns).takeWhile (· ≠ q) := by
    rw [hsplit]
    exact List.mem_append_left _ (mem_before_of_above htrail hq hne)
  simpa using List.mem_takeWhile_imp hbefore

theorem takeWhile_of_mem (h : c ∈ pre) (post : List Location) :
    (pre ++ post).takeWhile (· ≠ c) = pre.takeWhile (· ≠ c) := by
  induction pre with
  | nil => exact nomatch h
  | cons q pre ih =>
    by_cases hq : q = c
    · simp [hq]
    · have hmem : c ∈ pre := (List.mem_cons.mp h).resolve_left (Ne.symm hq)
      rw [List.cons_append, List.takeWhile_cons_of_pos (by simpa using hq),
        List.takeWhile_cons_of_pos (by simpa using hq), ih hmem]

theorem takeWhile_of_notMem (h : c ∉ pre) : (pre ++ c :: post).takeWhile (· ≠ c) = pre := by
  have hpre : ∀ q ∈ pre, decide (q ≠ c) = true := by
    intro q hq
    rw [decide_eq_true_iff]
    rintro rfl
    exact h hq
  rw [List.takeWhile_append_of_pos hpre]
  simp

theorem Shallow.filter (h : Shallow ns) : Shallow (ns.filter fun n => ¬ stay n) := by
  intro ms hms
  obtain ⟨ms, hprefix, rfl⟩ := List.prefix_filter_iff.mp hms
  have hcount : (ms.filter fun n => ¬ stay n).count parentName = ms.count parentName :=
    List.count_filter (by decide)
  have hnames : (ms.filter fun n => ¬ stay n).countP (fun n => IsName n) =
      ms.countP fun n => IsName n := by
    rw [List.countP_filter]
    apply List.countP_congr
    intro n _
    simp only [decide_eq_true_eq, Bool.and_eq_true]
    exact ⟨And.left, fun hn => ⟨hn, hn.1⟩⟩
  rw [hcount, hnames]
  exact h ms hprefix

/-- Where a way first comes to a location that is made, it next comes to one below it, apart
from where it has been and from what is made before. -/
def Shielded (made visited : List Location) : Prop :=
  ∀ pre m post, visited = pre ++ m :: post → m ∉ pre → m ≠ [] → m ∈ made →
    ∃ c, post.find? (fun c => c ∉ pre ∧ c ≠ m ∧ c ∉ made.takeWhile (· ≠ m)) = some c ∧ m <+: c

/-- A way that came to something missing still does after directories have been made. -/
theorem Shielded.missing {made visited : List Location} {missing dir : Location → Prop}
    (h : Shielded made visited) (hbelow : ∀ m c, missing m → m <+: c → missing c)
    (hroot : ¬ missing []) (hnew : ∀ m, missing m → dir m →
      m ∈ made ∧ ∀ q ∈ made.takeWhile (· ≠ m), dir q)
    (hsplit : visited = pre ++ c :: post) (hdirs : ∀ q ∈ pre, dir q) (hc : c ∉ pre)
    (hmissing : missing c) :
    ∃ pre c post, visited = pre ++ c :: post ∧ (∀ q ∈ pre, dir q) ∧ missing c ∧ ¬ dir c := by
  induction hlen : post.length using Nat.strong_induction_on generalizing pre c post with
  | _ len ih =>
  by_cases hdir : dir c
  · obtain ⟨hmade, hbefore⟩ := hnew c hmissing hdir
    have hne : c ≠ [] := by
      rintro rfl
      exact hroot hmissing
    obtain ⟨c', hfind, hunder⟩ := h pre c post hsplit hc hne hmade
    obtain ⟨hnext, between, after, rfl, hskip⟩ := List.find?_eq_some_iff_append.mp hfind
    simp only [decide_eq_true_eq] at hnext
    have hdirs' : ∀ q ∈ pre ++ c :: between, dir q := by
      intro q hq
      rcases List.mem_append.mp hq with hq | hq
      · exact hdirs q hq
      rcases List.mem_cons.mp hq with rfl | hq
      · exact hdir
      · have hq' := hskip q hq
        simp only [Bool.not_eq_true', decide_eq_false_iff_not] at hq'
        by_contra hnot
        exact hq' ⟨fun hmem => hnot (hdirs q hmem), fun heq => hnot (heq ▸ hdir),
          fun hmem => hnot (hbefore q hmem)⟩
    have hc' : c' ∉ pre ++ c :: between := by
      intro hmem
      rcases List.mem_append.mp hmem with hmem | hmem
      · exact hnext.1 hmem
      rcases List.mem_cons.mp hmem with heq | hmem
      · exact hnext.2.1 heq
      · have hq' := hskip c' hmem
        simp only [Bool.not_eq_true', decide_eq_false_iff_not] at hq'
        exact hq' hnext
    have hlater : visited = (pre ++ c :: between) ++ c' :: after := by
      rw [hsplit, List.append_assoc, List.cons_append]
    refine ih after.length ?_ hlater hdirs' hc' (hbelow c c' hmissing hunder) rfl
    rw [← hlen, List.length_append, List.length_cons]
    omega
  · exact ⟨pre, c, post, hsplit, hdirs, hmissing, hdir⟩

end Chton.PathTrails
