import Chton.ImageReads
import Chton.ResultVectors

/-!
# Walking arbitrary images

`iter` and `count_records` over arbitrary bytes, as functions of the bytes. A walk visits
the slots of a node whose occupancy bit is set; slots may share a child and a child may be
its own ancestor, so a record can be found on many paths, and more of them than a vector holds.
A count is kept for each node on its own, and it is its largest value so far that decides whether
the sum overflows.
-/

namespace Chton.ImageWalks
open OutcomePrograms ByteRegions LittleEndianWords Origins TreeStrategyProgram StoreLayouts
open LayoutImages StrategyCalls CoordMapProgram RecordCalls MemoryOrigins ImageReads ResultVectors

variable {N : ℕ} {b : Bytes}

/-- The occupancy bitmap of a node: empty behind the end, unreadable if the end cuts it. -/
def bitmapAt (b : Bytes) (node : ℕ) : Option Bytes :=
  if b.length ≤ node then some (List.replicate bitmapBytes 0) else
  if b.length < node + bitmapBytes then none else some ((b.drop node).take bitmapBytes)

/-- What a walk finds under one index of a node. -/
inductive Entry where
  | absent
  | present (value : ℕ)
  | unreadable

def entryAt (b bitmap : Bytes) (node : ℕ) (index : Coord) : Entry :=
  if peek bitmap (index.val / 8) &&& bitOf index = 0 then .absent else
  match slotAt b (slotAddr node index) with
  | none => .unreadable
  | some value => if value = absent then .absent else .present value

/-- What a walk adds up in the order of the slots. Behind a check that stops it nothing is added. -/
class Summary (τ : Type) where
  nothing : τ
  found (record : ℕ) : τ
  stopped : τ
  add : τ → τ → τ

def walkEntry {τ : Type} [Summary τ] (b : Bytes) (levels : ℕ) (below : ℕ → τ) (t : τ) : Entry → τ
  | .absent => t
  | .unreadable => Summary.add t Summary.stopped
  | .present value =>
    if levels = 0 then Summary.add t (Summary.found value) else
    if value + nodeSpan ≤ b.length then Summary.add t (below value) else
    Summary.add t Summary.stopped

/-- What a walk below a node adds up. -/
def walkNode {τ : Type} [Summary τ] (b : Bytes) : (levels node : ℕ) → τ
  | 0, _ => Summary.nothing
  | levels + 1, node =>
    match bitmapAt b node with
    | none => Summary.stopped
    | some bitmap => (List.finRange nValid).foldl (fun t index =>
      walkEntry b levels (walkNode b levels) t (entryAt b bitmap node index)) Summary.nothing

/-- The record offsets that a walk has found when it ends, and whether it came to its end. -/
structure Listing where
  found : List ℕ
  whole : Bool

def Listing.append (l below : Listing) : Listing :=
  if l.whole then ⟨l.found ++ below.found, below.whole⟩ else l

instance : Summary Listing where
  nothing := ⟨[], true⟩
  found record := ⟨[record], true⟩
  stopped := ⟨[], false⟩
  add := Listing.append

def listOf (N : ℕ) (b : Bytes) : Listing := walkNode b N rootOffset

/-- The count of a node, unless a check stops the walk, and the largest count so far. -/
structure Tally where
  count : Option ℕ
  peak : ℕ

def Tally.add (t : Tally) (below : Tally) : Tally where
  count := match t.count, below.count with
    | some n, some k => some (n + k)
    | _, _ => none
  peak := match t.count, below.count with
    | some n, some k => max (max t.peak below.peak) (n + k)
    | some _, none => max t.peak below.peak
    | none, _ => t.peak

instance : Summary Tally where
  nothing := ⟨some 0, 0⟩
  found _ := ⟨some 1, 0⟩
  stopped := ⟨none, 0⟩
  add := Tally.add

def tallyOf (N : ℕ) (b : Bytes) : Tally := walkNode b N rootOffset

theorem Listing.add_of_stopped {l : Listing} (h : l.whole = false) (below : Listing) :
    Summary.add l below = l := if_neg (Bool.eq_false_iff.mp h)

theorem Listing.add_of_whole {l : Listing} (h : l.whole = true) (below : Listing) :
    Summary.add l below = ⟨l.found ++ below.found, below.whole⟩ := if_pos h

theorem Listing.length_le_add (l below : Listing) :
    l.found.length ≤ (Summary.add l below).found.length := by
  cases h : l.whole with
  | false => rw [add_of_stopped h]
  | true =>
    rw [add_of_whole h, List.length_append]
    exact Nat.le_add_right _ _

theorem Tally.peak_le_add (t below : Tally) : t.peak ≤ (Summary.add t below).peak := by
  obtain ⟨count, peak⟩ := t
  obtain ⟨count', peak'⟩ := below
  cases count <;> cases count' <;> simp [Summary.add, Tally.add]

theorem Tally.add_of_stopped {t : Tally} (h : t.count = none) (below : Tally) :
    Summary.add t below = t := by
  obtain ⟨count, peak⟩ := t
  cases h
  rfl

theorem Tally.add_stopped (t : Tally) : Summary.add t Summary.stopped = ⟨none, t.peak⟩ := by
  obtain ⟨count, peak⟩ := t
  cases count with
  | none => rfl
  | some n => simp [Summary.add, Tally.add, Summary.stopped]

section
variable {τ : Type} [Summary τ]

/-- What every addition keeps, a walk keeps. -/
theorem walkEntry_keeps {P : τ → Prop} {t : τ} (hP : P t) (hadd : ∀ below, P (Summary.add t below))
    (levels : ℕ) (below : ℕ → τ) (entry : Entry) : P (walkEntry b levels below t entry) := by
  cases entry with
  | absent => exact hP
  | unreadable => exact hadd _
  | present value =>
    rw [walkEntry]
    split_ifs
    · exact hadd _
    · exact hadd _
    · exact hadd _

/-- A node with no other bit than the first. -/
theorem walkNode_first {bitmap : Bytes} {levels node : ℕ} (hbitmap : bitmapAt b node = some bitmap)
    (hrest : ∀ index : Coord, index ≠ 0 → peek bitmap (index.val / 8) &&& bitOf index = 0) :
    (walkNode b (levels + 1) node : τ) =
      walkEntry b levels (walkNode b levels) Summary.nothing (entryAt b bitmap node 0) := by
  have hslots : List.finRange nValid = 0 :: (List.finRange 11171).map Fin.succ := List.finRange_succ
  have hempty : ∀ (index : Fin 11171) (t : τ),
      walkEntry b levels (walkNode b levels) t (entryAt b bitmap node index.succ) = t := by
    intro index t
    rw [entryAt, if_pos (hrest index.succ (Fin.succ_ne_zero index))]
    rfl
  rw [walkNode, hbitmap]
  dsimp only
  rw [hslots, List.foldl_cons, List.foldl_map]
  simp only [hempty]
  exact List.foldl_fixed _

end

variable {w : ℕ} {σ : Type} [VectorOrigin w σ] {m : Mount N σ}

theorem readBitmap_reads (hlen : (dataOf m).length < 2 ^ w) (node : ℕ) :
    Ensures (readBitmap node) m (fun v m' => bitmapAt (dataOf m) node = some v ∧ m' = m)
      (Refused fun _ _ => bitmapAt (dataOf m) node = none) := by
  rw [bitmapAt]
  apply (memoryLen_spec m).andThen
  intro len m' hm'
  obtain ⟨rfl, rfl⟩ := hm'
  apply ensures_ite
  · intro hbehind
    rw [if_pos hbehind, ensures_pure]
    exact ⟨rfl, rfl⟩
  · intro hbefore
    have hbefore : node < (dataOf m').length := Nat.lt_of_not_le hbefore
    rw [if_neg (Nat.not_le.mpr hbefore)]
    apply (memoryData_spec m' (hbefore.trans hlen) bitmapBytes).andThen
    intro bitmap m₁ hbitmap
    obtain ⟨rfl, rfl⟩ := hbitmap
    apply ensures_ite
    · intro hshort
      rw [List.length_take, List.length_drop] at hshort
      rw [ensures_throw, if_pos (by omega)]
      exact rfl
    · intro hwhole
      rw [List.length_take, List.length_drop] at hwhole
      rw [ensures_pure, if_neg (by omega)]
      exact ⟨rfl, rfl⟩

/-- One turn of a walk: what it does with the entry under an index. -/
theorem entry_reads {α : Type} {x : BindingProgram N σ α}
    {k : ℕ → BindingProgram N σ α} {Q : α → Mount N σ → Prop}
    {E : Stop BindingError → Mount N σ → Prop} {bitmap : Bytes} {node : ℕ}
    {index : Coord} (hlen : (dataOf m).length < 2 ^ w) (hnode : node + nodeSpan < 2 ^ 64)
    (habsent : entryAt (dataOf m) bitmap node index = .absent → Ensures x m Q E)
    (hunreadable : entryAt (dataOf m) bitmap node index = .unreadable → ∀ e m', E (.err e) m')
    (hpresent : ∀ value, entryAt (dataOf m) bitmap node index = .present value →
      Ensures (k value) m Q E) :
    Ensures (if peek bitmap (index.val / 8) &&& bitOf index = 0 then x else do
      let pos ← slotPos node index
      let value ← readSlot pos
      if value = absent then x else k value) m Q E := by
  rw [entryAt] at habsent hunreadable
  apply ensures_ite
  · intro hclear
    exact habsent (if_pos hclear)
  · intro hset
    rw [if_neg hset] at habsent hunreadable
    apply (slotPos_spec m hnode).andThen
    intro pos m' hpos
    obtain ⟨rfl, rfl⟩ := hpos
    apply (readSlot_reads hlen (slotAddr node index)).bind
    · intro value m₁ hvalue
      obtain ⟨hvalue, rfl⟩ := hvalue
      rw [hvalue] at habsent
      apply ensures_ite
      · exact fun hzero => habsent (if_pos hzero)
      · intro hvalue'
        apply hpresent
        rw [entryAt, if_neg hset, hvalue]
        exact if_neg hvalue'
    · intro e m₁ hf
      cases e with
      | err e =>
        have hnone : slotAt (dataOf m') (slotAddr node index) = none := hf
        rw [hnone] at hunreadable
        exact hunreadable rfl e m₁
      | panic cause => exact hf.elim

/-- A loop follows a fold: its state is related to the sum so far, and where it ends early the
rest of the fold keeps what ended it. -/
theorem foldlM_follows {ε ρ α β τ : Type} {f : β → α → EStateM (Stop ε) ρ β} {g : τ → α → τ}
    {R : β → τ → Prop} {E : Stop ε → τ → Prop} {s : ρ}
    (hstep : ∀ x t a, R x t →
      Ensures (f x a) s (fun x' s' => s' = s ∧ R x' (g t a)) fun e _ => E e (g t a))
    (hend : ∀ e t a, E e t → E e (g t a)) (as : List α) {x : β} {t : τ} (h : R x t) :
    Ensures (as.foldlM f x) s (fun x' s' => s' = s ∧ R x' (as.foldl g t))
      fun e _ => E e (as.foldl g t) := by
  have hkept : ∀ (as : List α) (e : Stop ε) (t : τ), E e t → E e (as.foldl g t) := by
    intro as
    induction as with
    | nil => exact fun _ _ h => h
    | cons a as ih => exact fun e t h => ih e _ (hend e t a h)
  induction as generalizing x t with
  | nil => exact ensures_pure.mpr ⟨rfl, h⟩
  | cons a as ih =>
    rw [List.foldlM_cons, List.foldl_cons]
    apply (hstep x t a h).bind
    · intro x' s' hx'
      obtain ⟨rfl, hR⟩ := hx'
      exact ih hR
    · exact fun e _ he => hkept as e _ he

/-- A walk over the slots of a node follows the sum of what the slots lead to, whatever is done
with a record and with a child. -/
theorem node_reads {β τ : Type} [Summary τ] {last : Prop} [Decidable last] {levels node : ℕ}
    {leaf inner : β → Coord → ℕ → BindingProgram N σ β} {R : β → τ → Prop}
    {E : Stop BindingError → τ → Prop} {x : β} (hlen : (dataOf m).length < 2 ^ w) (hw : w ≤ 64)
    (hnode : node + nodeSpan < 2 ^ 64) (hlast : last ↔ levels = 0)
    (hstart : R x Summary.nothing) (hcut : ∀ e, E (.err e) Summary.stopped)
    (hstop : ∀ x t, R x t → ∀ e, E (.err e) (Summary.add t Summary.stopped))
    (hkept : ∀ e t, E e t → ∀ below, E e (Summary.add t below))
    (hleaf : ∀ x t index value, R x t →
      Ensures (leaf x index value) m
        (fun x' m' => m' = m ∧ R x' (Summary.add t (Summary.found value)))
        fun e _ => E e (Summary.add t (Summary.found value)))
    (hinner : ∀ x t index value, R x t → value + nodeSpan ≤ (dataOf m).length →
      Ensures (inner x index value) m
        (fun x' m' => m' = m ∧ R x' (Summary.add t (walkNode (dataOf m) levels value)))
        fun e _ => E e (Summary.add t (walkNode (dataOf m) levels value))) :
    Ensures (do
      let bitmap ← readBitmap node
      (List.finRange nValid).foldlM (fun x index =>
        if peek bitmap (index.val / 8) &&& bitOf index = 0 then pure x else do
          let pos ← slotPos node index
          let value ← readSlot pos
          if value = absent then pure x else
          if last then leaf x index value else do
          checkChildInBounds value
          inner x index value) x) m
      (fun x' m' => m' = m ∧ R x' (walkNode (dataOf m) (levels + 1) node))
      fun e _ => E e (walkNode (dataOf m) (levels + 1) node) := by
  have h64 : (dataOf m).length < 2 ^ 64 := hlen.trans_le (Nat.pow_le_pow_right (by omega) hw)
  rw [walkNode]
  apply (readBitmap_reads hlen node).bind
  · intro bitmap m' hbitmap
    obtain ⟨hbitmap, rfl⟩ := hbitmap
    rw [hbitmap]
    refine foldlM_follows ?_ (fun e t _ he => walkEntry_keeps he (hkept e t he) _ _ _) _ hstart
    intro x t index hx
    apply entry_reads hlen hnode
    · intro hentry
      rw [hentry, ensures_pure]
      exact ⟨rfl, hx⟩
    · intro hentry e _
      rw [hentry]
      exact hstop x t hx e
    · intro value hentry
      rw [hentry, walkEntry]
      apply ensures_ite
      · intro hrecord
        rw [if_pos (hlast.mp hrecord)]
        exact hleaf x t index value hx
      · intro hchild
        rw [if_neg (mt hlast.mpr hchild)]
        apply (checkChildInBounds_reads h64 value).bind
        · intro _ m₁ hbounds
          obtain ⟨hbounds, rfl⟩ := hbounds
          rw [if_pos hbounds]
          exact hinner x t index value hx hbounds
        · intro e m₁ hf
          cases e with
          | err e =>
            have hbeyond : (dataOf m').length < value + nodeSpan := hf
            rw [if_neg (Nat.not_le.mpr hbeyond)]
            exact hstop x t hx e
          | panic cause => exact hf.elim
  · intro e m' hf
    cases e with
    | err e =>
      have hnone : bitmapAt (dataOf m) node = none := hf
      rw [hnone]
      exact hcut e
    | panic cause => exact hf.elim

variable {size : ℕ}

/-- A result vector that starts with `out` and holds the records of a listing. -/
structure Holds (w size : ℕ) (out : List (CoordPath N × ℕ)) (l : Listing)
    (out' : List (CoordPath N × ℕ)) : Prop where
  whole : l.whole = true
  offsets : out'.map Prod.snd = out.map Prod.snd ++ l.found
  fits : PushFits w size (out.length + l.found.length)

/-- How an enumeration ends that returns no vector. -/
abbrev Breaks (w size n : ℕ) (l : Listing) : Stop BindingError → Prop
  | .err _ => l.whole = false ∧ PushFits w size (n + l.found.length)
  | .panic _ => ¬PushFits w size (n + l.found.length)

abbrev Lists (size : ℕ) (x : BindingProgram N σ (List (CoordPath N × ℕ))) (m : Mount N σ)
    (out : List (CoordPath N × ℕ)) (l : Listing) : Prop :=
  Ensures x m (fun out' m' => m' = m ∧ Holds w size out l out')
    fun e _ => Breaks w size out.length l e

section
variable {out out' : List (CoordPath N × ℕ)} {l : Listing}

theorem Holds.nothing (h : PushFits w size out.length) :
    Holds w size out (Summary.nothing : Listing) out := ⟨rfl, (List.append_nil _).symm, h⟩

theorem Holds.length (h : Holds w size out l out') :
    out'.length = out.length + l.found.length := by
  have hlength := congrArg List.length h.offsets
  rwa [List.length_map, List.length_append, List.length_map] at hlength

theorem Holds.breaks (h : Holds w size out l out') (e : BindingError) :
    Breaks w size out.length (Summary.add l Summary.stopped) (.err e) := by
  rw [Listing.add_of_whole h.whole]
  refine ⟨rfl, ?_⟩
  rw [List.length_append]
  exact h.fits

theorem Breaks.keep {n : ℕ} {e : Stop BindingError} (h : Breaks w size n l e) (below : Listing) :
    Breaks w size n (Summary.add l below) e := by
  cases e with
  | err e =>
    rw [Listing.add_of_stopped h.1]
    exact h
  | panic cause =>
    exact fun hfits => h (hfits.mono (Nat.add_le_add_left (Listing.length_le_add l below) n))

omit [VectorOrigin w σ] in
theorem lists_push (h : Holds w size out l out') (path : CoordPath N) (value : ℕ) :
    Lists (w := w) size (pushWithin w size out' (path, value)) m out
      (Summary.add l (Summary.found value)) := by
  have hlength : out'.length + 1 = out.length + (l.found ++ [value]).length := by
    rw [h.length, List.length_append, List.length_singleton, Nat.add_assoc]
  have hadd : Summary.add l (Summary.found value) = ⟨l.found ++ [value], true⟩ :=
    Listing.add_of_whole h.whole _
  rw [hadd, Lists, pushWithin, hlength]
  apply ensures_ite
  · intro hfits
    rw [pushEntry, ensures_pure]
    refine ⟨rfl, rfl, ?_, hfits⟩
    rw [List.map_append, h.offsets, List.append_assoc]
    rfl
  · intro hfull
    rw [ensures_throw]
    exact hfull

omit [VectorOrigin w σ] in
/-- A vector goes on with the listing of what lies below. -/
theorem Holds.goesOn {x : BindingProgram N σ (List (CoordPath N × ℕ))} {below : Listing}
    (h : Holds w size out l out') (hx : Lists (w := w) size x m out' below) :
    Lists (w := w) size x m out (Summary.add l below) := by
  rw [Listing.add_of_whole h.whole]
  apply hx.mono
  · intro out₁ m' hout₁
    obtain ⟨hm', hwhole, hoffsets, hfits⟩ := hout₁
    refine ⟨hm', hwhole, ?_, ?_⟩
    · rw [hoffsets, h.offsets, List.append_assoc]
    · rwa [h.length, Nat.add_assoc, ← List.length_append] at hfits
  · intro e m' he
    rw [h.length] at he
    cases e with
    | err e =>
      refine ⟨he.1, ?_⟩
      rw [List.length_append, ← Nat.add_assoc]
      exact he.2
    | panic cause =>
      change ¬PushFits _ _ _
      rw [List.length_append, ← Nat.add_assoc]
      exact he

end

theorem iterNode_reads (hlen : (dataOf m).length < 2 ^ w) (hw : w ≤ 64) {levels node depth : ℕ}
    (hnode : node + nodeSpan < 2 ^ 64) (hdepth : depth + levels = N) (path : CoordPath N)
    {out : List (CoordPath N × ℕ)} (hout : PushFits w size out.length) :
    Lists (w := w) size (iterNode (pushWithin w size) levels node depth path out) m out
      (walkNode (dataOf m) levels node) := by
  have h64 : (dataOf m).length < 2 ^ 64 := hlen.trans_le (Nat.pow_le_pow_right (by omega) hw)
  induction levels generalizing node depth path out with
  | zero => exact ensures_pure.mpr ⟨rfl, .nothing hout⟩
  | succ levels ih =>
    rw [iterNode]
    refine node_reads (R := fun out' l => Holds w size out l out')
      (E := fun e l => Breaks w size out.length l e) hlen hw hnode (by omega) (.nothing hout)
      (fun _ => ⟨rfl, hout⟩) (fun _ _ h => h.breaks) (fun _ _ h => h.keep) ?_ ?_
    · exact fun _ _ _ _ h => lists_push h _ _
    · intro out' l index value h hchild
      apply h.goesOn
      exact ih (by omega) (by omega) _ (h.length ▸ h.fits)

theorem pushFits_zero (w size : ℕ) : PushFits w size 0 := by
  rw [PushFits, GrowingVectors.pushed, Nat.zero_mul]
  exact Nat.two_pow_pos _

theorem iter_reads (hlen : (dataOf m).length < 2 ^ w) (hw : w ≤ 64) :
    Ensures (iterWith (pushWithin w size)) m
      (fun out m' => m' = m ∧ (listOf N (dataOf m)).whole = true ∧
        out.map Prod.snd = (listOf N (dataOf m)).found ∧
        PushFits w size (listOf N (dataOf m)).found.length)
      (EndsAs ((listOf N (dataOf m)).whole = false ∧
          PushFits w size (listOf N (dataOf m)).found.length)
        (¬PushFits w size (listOf N (dataOf m)).found.length)) := by
  have hroot : rootOffset + nodeSpan < 2 ^ 64 := by decide
  have hempty : PushFits w size ([] : List (CoordPath N × ℕ)).length := pushFits_zero w size
  have hspec := iterNode_reads hlen hw hroot (Nat.zero_add N) (CoordPath.zero N) hempty
  rw [Lists, List.length_nil] at hspec
  apply hspec.mono
  · intro out m' hout
    obtain ⟨hm, hwhole, hoffsets, hfits⟩ := hout
    rw [List.length_nil, Nat.zero_add] at hfits
    exact ⟨hm, hwhole, hoffsets, hfits⟩
  · intro e m' he
    cases e with
    | err e =>
      rw [Breaks, Nat.zero_add] at he
      exact he
    | panic cause =>
      rw [Breaks, Nat.zero_add] at he
      exact he

theorem entryAt_lt {bitmap : Bytes} {node value : ℕ} {index : Coord}
    (h : entryAt b bitmap node index = .present value) : value < 2 ^ 64 := by
  rw [entryAt] at h
  split at h
  · cases h
  · split at h
    · cases h
    · next hslot =>
      split at h
      · cases h
      · cases h
        exact slotAt_lt hslot

theorem foldl_keeps {α τ : Type} {g : τ → α → τ} {P : τ → Prop} (hstep : ∀ t a, P t → P (g t a))
    (as : List α) {t : τ} (ht : P t) : P (as.foldl g t) := by
  induction as generalizing t with
  | nil => exact ht
  | cons a as ih => exact ih (hstep t a ht)

theorem mem_add {l below : Listing} {r : ℕ} (h : r ∈ (Summary.add l below).found) :
    r ∈ l.found ∨ r ∈ below.found := by
  cases hl : l.whole with
  | false =>
    rw [Listing.add_of_stopped hl] at h
    exact .inl h
  | true =>
    rw [Listing.add_of_whole hl] at h
    exact List.mem_append.mp h

theorem walkNode_lt (b : Bytes) (levels node : ℕ) :
    ∀ r ∈ (walkNode b levels node : Listing).found, r < 2 ^ 64 := by
  induction levels generalizing node with
  | zero => exact fun r hr => absurd hr List.not_mem_nil
  | succ levels ih =>
    rw [walkNode]
    cases bitmapAt b node with
    | none => exact fun r hr => absurd hr List.not_mem_nil
    | some bitmap =>
      apply foldl_keeps (P := fun t : Listing => ∀ r ∈ t.found, r < 2 ^ 64)
      · intro t index ht
        cases hentry : entryAt b bitmap node index with
        | absent => exact ht
        | unreadable => exact fun r hr => (mem_add hr).elim (ht r) fun hr => absurd hr List.not_mem_nil
        | present value =>
          rw [walkEntry]
          split_ifs with hlast hchild
          · intro r hr
            cases mem_add hr with
            | inl hr => exact ht r hr
            | inr hr => exact List.mem_singleton.mp hr ▸ entryAt_lt hentry
          · exact fun r hr => (mem_add hr).elim (ht r) (ih value r)
          · exact fun r hr => (mem_add hr).elim (ht r) fun hr => absurd hr List.not_mem_nil
      · exact fun r hr => absurd hr List.not_mem_nil

theorem listOf_lt (N : ℕ) (b : Bytes) : ∀ r ∈ (listOf N b).found, r < 2 ^ 64 :=
  walkNode_lt b N rootOffset

/-- Reading the records in turn reaches one that panics, behind records that are read. -/
def ReachesPanic (w : ℕ) (b : Bytes) (s : ℕ) : List ℕ → Prop
  | [] => False
  | r :: rs => Panics w b s r ∨ Accepts w b s r ∧ ReachesPanic w b s rs

theorem readEntries_reads {st : CoordMapStore w N σ} {s : ℕ}
    (hlen : (dataOf st.mount).length < 2 ^ w) (hw : w ≤ 64) (hs : st.recordSlotSize = s)
    (found : List (CoordPath N × ℕ)) (hfound : ∀ r ∈ found.map Prod.snd, r < 2 ^ 64)
    (out : List (CoordKey N × Bytes)) :
    PanicsIff (found.foldlM (fun out e => do
        let value ← readRecord e.2
        pure (out ++ [(projectByteKey e.1, value)])) out) st
      (ReachesPanic w (dataOf st.mount) s (found.map Prod.snd)) := by
  induction found generalizing out with
  | nil => exact ensures_pure.mpr id
  | cons e found ih =>
    rw [List.map_cons, List.forall_mem_cons] at hfound
    rw [List.foldlM_cons, List.map_cons, ReachesPanic, bind_assoc]
    apply (readRecord_reads hlen hw hfound.1 hs).bind
    · intro value st' hvalue
      obtain ⟨-, haccepts, rfl⟩ := hvalue
      rw [pure_bind]
      have hpanics : ¬Panics w (dataOf st'.mount) s e.2 := fun h => h.not_accepts haccepts
      apply (ih hfound.2 _).congr
      constructor
      · exact fun hrest => .inr ⟨haccepts, hrest⟩
      · exact fun h => h.elim (fun h => absurd h hpanics) And.right
    · intro stop st' hstop
      cases stop with
      | err error =>
        intro h
        exact h.elim (fun h => h.not_refuses hstop) fun h => h.1.not_refuses hstop
      | panic cause => exact .inl hstop

/-- An enumeration overruns a vector, or reads a record that panics. -/
def EntriesPanic (w N : ℕ) (z : ElementSizes) (b : Bytes) (s : ℕ) : Prop :=
  ¬PushFits w z.located (listOf N b).found.length ∨ (listOf N b).whole = true ∧
    (2 ^ (w - 1) ≤ (listOf N b).found.length * z.entry ∨ ReachesPanic w b s (listOf N b).found)

/-- `CoordMapStore::iter` panics where one of its vectors is too long or a record panics. -/
theorem entries_reads {st : CoordMapStore w N σ} {s : ℕ} (z : ElementSizes)
    (hlen : (dataOf st.mount).length < 2 ^ w) (hw : w ≤ 64) (hs : st.recordSlotSize = s) :
    PanicsIff (entriesWithin z) st (EntriesPanic w N z (dataOf st.mount) s) := by
  rw [entriesWithin, EntriesPanic]
  apply (onStrategy_spec (iter_reads hlen hw)).bind
  · intro found st' hfound
    obtain ⟨hst', hm, hwhole, hoffsets, hfits⟩ := hfound
    rw [hm] at hst'
    subst hst'
    have hlength : found.length = (listOf N (dataOf st.mount)).found.length := by
      rw [← hoffsets, List.length_map]
    rw [withCapacity, ite_bind]
    apply ensures_ite
    · intro hroom
      rw [hlength] at hroom
      rw [pure_bind]
      apply (readEntries_reads hlen hw hs found (hoffsets ▸ listOf_lt N _) []).congr
      rw [hoffsets]
      constructor
      · exact fun h => .inr ⟨hwhole, .inr h⟩
      · rintro (h | ⟨-, h | h⟩)
        · exact absurd hfits h
        · exact absurd hroom (Nat.not_lt.mpr h)
        · exact h
    · intro hfull
      rw [hlength] at hfull
      rw [throw_bind, ensures_throw]
      exact .inr ⟨hwhole, .inl (Nat.le_of_not_lt hfull)⟩
  · intro stop st' hstop
    obtain ⟨-, e, rfl, he⟩ := hstop
    cases e with
    | err e =>
      obtain ⟨hcut, hfits⟩ := he
      rintro (h | ⟨hwhole, -⟩)
      · exact h hfits
      · exact Bool.false_ne_true (hcut.symm.trans hwhole)
    | panic cause => exact .inl he

/-- How a count ends that returns no number. -/
abbrev Tally.Breaks (t : Tally) : Stop BindingError → Prop
  | .err _ => t.count = none ∧ t.peak < 2 ^ 64
  | .panic _ => 2 ^ 64 ≤ t.peak

abbrev Counts (x : BindingProgram N σ ℕ) (m : Mount N σ) (t : Tally) : Prop :=
  Ensures x m (fun n m' => m' = m ∧ t.count = some n ∧ t.peak < 2 ^ 64) fun e _ => t.Breaks e

theorem Tally.Breaks.keep {t : Tally} {e : Stop BindingError} (h : t.Breaks e) (below : Tally) :
    (Summary.add t below).Breaks e := by
  cases e with
  | err e =>
    rw [Tally.add_of_stopped h.1]
    exact h
  | panic cause =>
    have h : 2 ^ 64 ≤ t.peak := h
    exact h.trans (Tally.peak_le_add t below)

theorem addU64_exact {ε σ : Type} (s : σ) (n k : ℕ) :
    Ensures (addU64 n k : EStateM (Stop ε) σ ℕ) s (fun a s' => a = n + k ∧ n + k < 2 ^ 64 ∧ s' = s)
      (EndsAs False (2 ^ 64 ≤ n + k)) := by
  rw [addU64]
  apply ensures_ite
  · exact fun hfit => ensures_pure.mpr ⟨rfl, hfit, rfl⟩
  · exact fun hfull => ensures_throw.mpr (Nat.le_of_not_lt hfull)

/-- The sum of a count and the count of what lies below. -/
theorem counts_add {x : BindingProgram N σ ℕ} {n : ℕ} {t below : Tally}
    (hn : t.count = some n) (ht : t.peak < 2 ^ 64) (h : Counts x m below) :
    Counts (x >>= fun k => addU64 n k) m (Summary.add t below) := by
  obtain ⟨count, peak⟩ := t
  cases hn
  apply h.bind
  · intro k m' hk
    obtain ⟨rfl, hk, hpeak⟩ := hk
    obtain ⟨count, peak'⟩ := below
    cases hk
    apply (addU64_exact m' n k).mono
    · intro sum m₁ hsum
      obtain ⟨rfl, hfit, hm₁⟩ := hsum
      exact ⟨hm₁, rfl, max_lt (max_lt ht hpeak) hfit⟩
    · intro e m₁ he
      cases e with
      | err e => exact he.elim
      | panic cause => exact le_max_of_le_right he
  · intro e m' he
    cases e with
    | err e =>
      obtain ⟨count, peak'⟩ := below
      obtain ⟨hnone, hpeak⟩ := he
      cases hnone
      exact ⟨rfl, max_lt ht hpeak⟩
    | panic cause =>
      obtain ⟨count, peak'⟩ := below
      have he : 2 ^ 64 ≤ peak' := he
      cases count with
      | none => exact le_max_of_le_right he
      | some k => exact le_max_of_le_left (le_max_of_le_right he)

theorem countNode_reads (hlen : (dataOf m).length < 2 ^ w) (hw : w ≤ 64) {levels node depth : ℕ}
    (hnode : node + nodeSpan < 2 ^ 64) (hdepth : depth + levels = N) :
    Counts (countNode levels node depth) m (walkNode (dataOf m) levels node) := by
  have h64 : (dataOf m).length < 2 ^ 64 := hlen.trans_le (Nat.pow_le_pow_right (by omega) hw)
  have hpos : 0 < 2 ^ 64 := Nat.two_pow_pos 64
  induction levels generalizing node depth with
  | zero => exact ensures_pure.mpr ⟨rfl, rfl, hpos⟩
  | succ levels ih =>
    rw [countNode]
    refine node_reads (R := fun n (t : Tally) => t.count = some n ∧ t.peak < 2 ^ 64)
      (E := fun e t => t.Breaks e) hlen hw hnode (by omega) ⟨rfl, hpos⟩ (fun _ => ⟨rfl, hpos⟩)
      ?_ (fun _ _ h => h.keep) ?_ ?_
    · intro n t h e
      rw [Tally.add_stopped]
      exact ⟨rfl, h.2⟩
    · intro n t index value h
      exact counts_add (x := pure 1) h.1 h.2 (ensures_pure.mpr ⟨rfl, rfl, hpos⟩)
    · intro n t index value h hchild
      exact counts_add h.1 h.2 (ih (by omega) (by omega))

/-- `count_records` ends as the tally says. -/
theorem countRecords_reads (hlen : (dataOf m).length < 2 ^ w) (hw : w ≤ 64) :
    Counts countRecords m (tallyOf N (dataOf m)) :=
  countNode_reads hlen hw (by decide) (Nat.zero_add N)

end Chton.ImageWalks
