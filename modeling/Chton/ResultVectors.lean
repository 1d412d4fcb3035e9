import Chton.CoordMapProgram
import Chton.GrowingVectors

/-!
# The vectors of an enumeration

`TreeStrategy::iter` pushes what it finds onto a vector, and `CoordMapStore::iter` makes room for
as many entries before it reads them. Neither vector can be longer than `isize::MAX` bytes. An
enumeration with these two vectors panics when one of them would be, and otherwise returns what
an enumeration returns whose vectors have no bound.
-/

namespace Chton.ResultVectors
open OutcomePrograms ByteRegions Origins TreeStrategyProgram CoordMapProgram GrowingVectors

/-- The sizes in bytes of a `(CoordPath<N>, u64)` and of a `(CoordKey<N>, Vec<u8>)`. The layout of
a tuple is up to the compiler. -/
structure ElementSizes where
  located : ℕ
  entry : ℕ

/-- A vector that `n` pushes have filled is within `isize::MAX` bytes. -/
def PushFits (w size n : ℕ) : Prop := pushed size n * size < 2 ^ (w - 1)

instance {w size n : ℕ} : Decidable (PushFits w size n) := inferInstanceAs (Decidable (_ < _))

/-- Both vectors of an enumeration of `n` entries are. -/
structure EntriesFit (w : ℕ) (z : ElementSizes) (n : ℕ) : Prop where
  located : PushFits w z.located n
  entries : n * z.entry < 2 ^ (w - 1)

variable {w N size n k : ℕ} {σ α : Type}

/-- `Vec::push`. -/
def pushWithin (w size : ℕ) (out : List (CoordPath N × ℕ)) (entry : CoordPath N × ℕ) :
    BindingProgram N σ (List (CoordPath N × ℕ)) :=
  if PushFits w size (out.length + 1) then pushEntry out entry else throw (.panic .capacity)

/-- `CoordMapStore::iter` with its two vectors. -/
def entriesWithin [Origin σ] (z : ElementSizes) : MapProgram w N σ (List (CoordKey N × Bytes)) := do
  let found ← onStrategy (iterWith (pushWithin w z.located))
  withCapacity w z.entry found.length
  readEntries found

theorem PushFits.mono (h : PushFits w size n) (hk : k ≤ n) : PushFits w size k :=
  (Nat.mul_le_mul_right size (pushed_mono size hk)).trans_lt h

/-- A result of `x` is at least `n` elements long, and `y` returns it too if it fits. -/
def Grows (w size n : ℕ) (x y : BindingProgram N σ (List (CoordPath N × ℕ))) : Prop :=
  ∀ m out m', x m = .ok out m' →
    n ≤ out.length ∧ (PushFits w size out.length → y m = .ok out m')

variable {x y : BindingProgram N σ (List (CoordPath N × ℕ))}

theorem Grows.pure {out : List (CoordPath N × ℕ)} :
    Grows w size out.length (Pure.pure out : BindingProgram N σ _) (Pure.pure out) := by
  intro m out' m' h
  cases h
  exact ⟨le_rfl, fun _ => rfl⟩

theorem Grows.ite {c : Prop} [Decidable c] {x' y' : BindingProgram N σ (List (CoordPath N × ℕ))}
    (h : Grows w size n x y) (h' : Grows w size n x' y') :
    Grows w size n (if c then x else x') (if c then y else y') := by
  split
  · exact h
  · exact h'

/-- The same program in front. -/
theorem Grows.after {u : BindingProgram N σ α}
    {f g : α → BindingProgram N σ (List (CoordPath N × ℕ))}
    (h : ∀ a, Grows w size n (f a) (g a)) : Grows w size n (u >>= f) (u >>= g) := by
  intro m out m' hok
  rw [bind_apply] at hok ⊢
  cases hu : u m with
  | error e m₁ =>
    rw [hu] at hok
    cases hok
  | ok a m₁ =>
    rw [hu] at hok
    exact h a m₁ out m' hok

/-- A loop whose turns only push. -/
theorem Grows.foldlM {f g : List (CoordPath N × ℕ) → α → BindingProgram N σ (List (CoordPath N × ℕ))}
    (h : ∀ out a, Grows w size out.length (f out a) (g out a)) (as : List α)
    (out : List (CoordPath N × ℕ)) : Grows w size out.length (as.foldlM f out) (as.foldlM g out) := by
  induction as generalizing out with
  | nil => exact Grows.pure
  | cons a as ih =>
    intro m out' m' hok
    rw [List.foldlM_cons, bind_apply] at hok ⊢
    cases hf : f out a m with
    | error e m₁ =>
      rw [hf] at hok
      cases hok
    | ok out₁ m₁ =>
      rw [hf] at hok
      obtain ⟨hle, hg⟩ := h out a m out₁ m₁ hf
      obtain ⟨hle', hrest⟩ := ih out₁ m₁ out' m' hok
      refine ⟨hle.trans hle', fun hfits => ?_⟩
      rw [hg (hfits.mono hle')]
      exact hrest hfits

theorem grows_push (out : List (CoordPath N × ℕ)) (entry : CoordPath N × ℕ) :
    Grows w size out.length (pushEntry out entry : BindingProgram N σ _)
      (pushWithin w size out entry) := by
  intro m out' m' hok
  cases hok
  rw [List.length_append, List.length_singleton]
  refine ⟨Nat.le_succ _, fun hfits => ?_⟩
  rw [pushWithin, if_pos hfits]
  rfl

variable [Origin σ]

theorem grows_iterNode (levels node depth : ℕ) (path : CoordPath N)
    (out : List (CoordPath N × ℕ)) :
    Grows w size out.length (iterNode pushEntry levels node depth path out : BindingProgram N σ _)
      (iterNode (pushWithin w size) levels node depth path out) := by
  induction levels generalizing node depth path out with
  | zero => exact Grows.pure
  | succ levels ih =>
    apply Grows.after
    intro bitmap
    apply Grows.foldlM
    intro out index
    apply Grows.pure.ite
    apply Grows.after
    intro pos
    apply Grows.after
    intro value
    apply Grows.pure.ite
    apply (grows_push _ _).ite
    apply Grows.after
    exact fun _ => ih value _ _ out

theorem length_readEntries (found : List (CoordPath N × ℕ)) (st : CoordMapStore w N σ) :
    Ensures (readEntries found) st (fun es _ => es.length = found.length) fun _ _ => True := by
  refine Ensures.foldlM (fun visited (out : List (CoordKey N × Bytes)) _ =>
    out.length = visited.length) rfl ?_
  intro visited e rest out st' _ hout
  have hread : Ensures (readRecord e.2) st' (fun _ _ => True) fun _ _ => True :=
    ⟨fun _ => trivial, fun _ => trivial⟩
  apply hread.andThen
  intro value st'' _
  rw [ensures_pure, List.length_append, List.length_append, hout]
  rfl

/-- An enumeration whose vectors fit returns them. -/
theorem entriesWithin_of_ok {z : ElementSizes} {st st' : CoordMapStore w N σ}
    {es : List (CoordKey N × Bytes)} (h : entries st = .ok es st') (hfit : EntriesFit w z es.length) :
    entriesWithin z st = .ok es st' := by
  rw [entries, onStrategy, bind_apply, focus] at h
  rw [entriesWithin, onStrategy, bind_apply, focus]
  cases hiter : iter st.mount with
  | error e m =>
    rw [hiter] at h
    cases h
  | ok found m =>
    rw [hiter] at h
    have hlength := (length_readEntries found _).ok h
    have hgrows : Grows w z.located 0 (iter : BindingProgram N σ _)
        (iterWith (pushWithin w z.located)) :=
      grows_iterNode N rootOffset 0 (CoordPath.zero N) []
    obtain ⟨-, hwithin⟩ := hgrows st.mount found m hiter
    have hbounded : iterWith (pushWithin w z.located) st.mount = .ok found m :=
      hwithin (hlength ▸ hfit.located)
    rw [hbounded]
    dsimp only
    rw [withCapacity, if_pos (hlength ▸ hfit.entries), pure_bind]
    exact h

end Chton.ResultVectors
