import Chton.EntitySimulations
import Chton.PathlessStores

/-!
# The two proximity queries

Both queries look up the paths that the cube enumerates around a center. The query of the map
sizes its result vector first, as `(2 * radius + 1) ^ N` elements; the query of the
entity store lets its vector grow. They give the same answer exactly where that size can be
computed and reserved.

The cube is not part of this repository and is a parameter, as is the size of one result
in memory. A reservation is refused above `isize::MAX` bytes.
-/

namespace Chton.ProximityQueries
open OutcomePrograms CallRuns ByteRegions Origins TreeStrategyProgram CoordMapProgram
open StoreLayouts StoreLayouts.Layout StrategyCalls StoreRepresentations RecordCalls MapCalls
open LayoutContents StoreRuns MapServices EntityStores EntitySimulations PathlessStores

/-- `CoordCube::<N, D, R>::from_path(center).proximity(radius)`. -/
abbrev Cube (N : ℕ) := (D R : ℕ) → CoordPath N → ℕ → List (CoordPath N)

/-- What the queries panic with when an inner call fails. -/
inductive QueryFailure where
  | map (error : MapError)
  | store (error : MapError)
  | decode
  deriving DecidableEq, Repr

abbrev QueryProgram (N : ℕ) (σ α : Type) := EStateM (Stop QueryFailure) (CoordMapStore 64 N σ) α

section
variable {N : ℕ} {σ α V : Type}

/-- `2 * radius`. -/
def mulUsize (a b : ℕ) : QueryProgram N σ ℕ :=
  if a * b < 2 ^ 64 then pure (a * b) else throw (.panic .overflow)

/-- `usize::pow`. -/
def powUsize (a exponent : ℕ) : QueryProgram N σ ℕ :=
  if a ^ exponent < 2 ^ 64 then pure (a ^ exponent) else throw (.panic .overflow)

/-- The loop over the enumerated paths: look each one up and keep what is there. -/
def collect {ε ρ : Type} (find : CoordPath N → EStateM ε ρ (Option Bytes)) (ps : List (CoordPath N)) :
    EStateM ε ρ (List (CoordPath N × Bytes)) :=
  ps.foldlM (fun results path => do
    let value ← find path
    match value with
    | some val => pure (results ++ [(path, val)])
    | none => pure results) []

variable [Origin σ]

/-- `get_path(path).unwrap_or_else(|e| panic!(..))`. -/
def lookup (failure : MapError → QueryFailure) (path : CoordPath N) :
    QueryProgram N σ (Option Bytes) :=
  focus id (fun st _ => st) (Stop.map failure) (getPath path)

/-- `CoordMapStore::proximity`. -/
def mapProximity (cube : Cube N) (elementBytes D R : ℕ) (center : CoordPath N) (radius : ℕ) :
    QueryProgram N σ (List (CoordPath N × Bytes)) := do
  let twice ← mulUsize 2 radius
  let side ← addU64 twice 1
  let capacity ← powUsize side (N % 2 ^ 32)
  withCapacity 64 elementBytes capacity
  collect (lookup .map) (cube D R center radius)

/-- `decode_value`. -/
def decodeFound (codec : Codec V) (bytes : Bytes) : QueryProgram N σ V :=
  match codec.fromBytes bytes with
  | some value => pure value
  | none => throw (.err .decode)

/-- `MapEntityStore::proximity`. -/
def storeProximity (cube : Cube N) (codec : Codec V) (D R : ℕ) (center : CoordPath N) (radius : ℕ) :
    QueryProgram N σ (List (CoordPath N × V)) :=
  (cube D R center radius).foldlM (fun results path => do
    let value ← lookup .store path
    match value with
    | some bytes =>
      let decoded ← decodeFound codec bytes
      pure (results ++ [(path, decoded)])
    | none => pure results) []

end

/-- The size that is reserved can be computed, and the request is allowed. -/
structure SizeFits (N elementBytes radius : ℕ) : Prop where
  side : 2 * radius + 1 < 2 ^ 64
  capacity : (2 * radius + 1) ^ N < 2 ^ 64
  request : (2 * radius + 1) ^ N * elementBytes < 2 ^ 63

variable {N : ℕ} {σ V : Type} [ByteOrigin σ]
variable {cube : Cube N} {codec : Codec V} {D R radius elementBytes slot : ℕ} {center : CoordPath N}
variable {st st' : CoordMapStore 64 N σ} {f : PathMap N}

/-- The loop of the entity store, which decodes what it finds. -/
def collectDecoded (codec : Codec V) (ps : List (CoordPath N)) (results : List (CoordPath N × V)) :
    QueryProgram N σ (List (CoordPath N × V)) :=
  ps.foldlM (fun results path => do
    let value ← lookup .store path
    match value with
    | some bytes =>
      let decoded ← decodeFound codec bytes
      pure (results ++ [(path, decoded)])
    | none => pure results) results

theorem mapProximity_fits (hN : N ≤ maxStoreDepth) (h : SizeFits N elementBytes radius) :
    (mapProximity cube elementBytes D R center radius : QueryProgram N σ _) =
      collect (lookup .map) (cube D R center radius) := by
  have hexp : N % 2 ^ 32 = N := Nat.mod_eq_of_lt (Nat.lt_of_le_of_lt hN (by decide))
  have htwice : 2 * radius < 2 ^ 64 := Nat.lt_of_succ_lt h.side
  simp only [mapProximity, mulUsize, addU64, powUsize, withCapacity_eq, hexp, if_pos htwice,
    if_pos h.side, if_pos h.capacity, if_pos h.request, pure_bind]

omit [ByteOrigin σ] in
/-- A program that panics once a check went through panics at the check or after it. -/
theorem panics_of_check {α β : Type} {c : Prop} [Decidable c] {a : α} {cause : Panic}
    {k : α → QueryProgram N σ β} (hk : c → ∃ cause', k a st = .error (.panic cause') st) :
    ∃ cause', ((if c then pure a else throw (.panic cause) : QueryProgram N σ α) >>= k) st =
      .error (.panic cause') st := by
  split
  · exact hk ‹c›
  · exact ⟨cause, rfl⟩

/-- Otherwise the query panics before it looks at any entry. -/
theorem mapProximity_unfit (hN : N ≤ maxStoreDepth) (h : ¬SizeFits N elementBytes radius) :
    ∃ cause, mapProximity cube elementBytes D R center radius st = .error (.panic cause) st := by
  have hexp : N % 2 ^ 32 = N := Nat.mod_eq_of_lt (Nat.lt_of_le_of_lt hN (by decide))
  rw [mapProximity, hexp]
  apply panics_of_check
  intro _
  apply panics_of_check
  intro hside
  apply panics_of_check
  intro hcapacity
  apply panics_of_check
  intro hrequest
  exact absurd ⟨hside, hcapacity, hrequest⟩ h

/-- What the store holds at a path, as `get_path` reports it. -/
def valueAt (st : CoordMapStore 64 N σ) (path : CoordPath N) : Option Bytes :=
  match getPath path st with
  | .ok value _ => value
  | .error _ _ => none

def foundIn (f : PathMap N) (ps : List (CoordPath N)) : List (CoordPath N × Bytes) :=
  ps.filterMap fun p => (f p).map fun value => (p, value)

def Decodes (codec : Codec V) (es : List (CoordPath N × Bytes)) (out : List (CoordPath N × V)) :
    Prop :=
  List.Forall₂ (fun e x => x.1 = e.1 ∧ codec.fromBytes e.2 = some x.2) es out

structure Answers (cube : Cube N) (codec : Codec V) (elementBytes D R : ℕ) (center : CoordPath N)
    (radius : ℕ) (st : CoordMapStore 64 N σ) : Prop where
  map : ∃ st', mapProximity cube elementBytes D R center radius st =
    .ok (foundIn (valueAt st) (cube D R center radius)) st'
  store : ∀ out, Decodes codec (foundIn (valueAt st) (cube D R center radius)) out →
    ∃ st', storeProximity cube codec D R center radius st = .ok out st'

theorem foundIn_cons_none {p : CoordPath N} (h : f p = none) (ps : List (CoordPath N)) :
    foundIn f (p :: ps) = foundIn f ps := by
  simp [foundIn, h]

theorem foundIn_cons_some {p : CoordPath N} {v : Bytes} (h : f p = some v) (ps : List (CoordPath N)) :
    foundIn f (p :: ps) = (p, v) :: foundIn f ps := by
  simp [foundIn, h]

theorem valueAt_backs (hfail : NeverFails σ) (hN : 0 < N) (h : Backs slot st f) :
    valueAt st = f := by
  funext p
  obtain ⟨v, st', hx, rfl, -⟩ := (getPath_backs hfail hN h p).exists_ok
  simp [valueAt, hx]

theorem lookup_spec (hfail : NeverFails σ) (hN : 0 < N) (h : Backs slot st f)
    (failure : MapError → QueryFailure) (p : CoordPath N) :
    Ensures (lookup failure p) st (fun v st' => v = f p ∧ Backs slot st' f) fun _ _ => False := by
  rw [lookup, ensures_focus]
  exact getPath_backs hfail hN h p

omit [ByteOrigin σ] in
/-- The loop finds what its lookups find one by one. -/
theorem collect_spec {ε : Type} {find : CoordPath N → EStateM ε (CoordMapStore 64 N σ) (Option Bytes)}
    {I : CoordMapStore 64 N σ → Prop} {E : ε → CoordMapStore 64 N σ → Prop}
    (hfind : ∀ p st, I st → Ensures (find p) st (fun v st' => v = f p ∧ I st') E) (hst : I st)
    (ps : List (CoordPath N)) :
    Ensures (collect find ps) st (fun r st' => r = foundIn f ps ∧ I st') E := by
  apply Ensures.foldlM fun pre results st' => results = foundIn f pre ∧ I st'
  · exact ⟨rfl, hst⟩
  · intro pre p post results st' _ hI
    obtain ⟨rfl, hst'⟩ := hI
    apply (hfind p st' hst').andThen
    intro v st'' hv
    obtain ⟨rfl, hst''⟩ := hv
    cases hp : f p with
    | none => simp [foundIn, hp, hst'']
    | some v => simp [foundIn, hp, hst'']

omit [ByteOrigin σ] in
theorem decodeFound_some {bytes : Bytes} {value : V} (h : codec.fromBytes bytes = some value) :
    (decodeFound codec bytes : QueryProgram N σ V) = pure value := by
  rw [decodeFound, h]

theorem collectDecoded_spec (hfail : NeverFails σ) (hN : 0 < N) (h : Backs slot st f)
    {ps : List (CoordPath N)} {out : List (CoordPath N × V)}
    (hout : Decodes codec (foundIn f ps) out) (results : List (CoordPath N × V)) :
    Ensures (collectDecoded codec ps results) st (fun r _ => r = results ++ out)
      fun _ _ => False := by
  induction ps generalizing st results out with
  | nil =>
    cases hout
    simp [collectDecoded]
  | cons p ps ih =>
    rw [collectDecoded, List.foldlM_cons, bind_assoc]
    apply (lookup_spec hfail hN h .store p).andThen
    intro v st' hv
    obtain ⟨rfl, hst'⟩ := hv
    cases hp : f p with
    | none =>
      rw [foundIn_cons_none hp] at hout
      exact ih hst' hout results
    | some v =>
      rw [foundIn_cons_some hp] at hout
      cases hout with
      | @cons _ x _ tail hx htail =>
        obtain ⟨rfl, hx⟩ := hx
        have hrest := ih hst' htail (results ++ [x])
        rw [List.append_assoc] at hrest
        simp only [decodeFound_some hx, pure_bind]
        exact hrest

/-- The query of the entity store answers for every radius. -/
theorem storeProximity_answers (hfail : NeverFails σ) (hN : 0 < N) (h : Backs slot st f)
    {out : List (CoordPath N × V)} (hout : Decodes codec (foundIn f (cube D R center radius)) out) :
    ∃ st', storeProximity cube codec D R center radius st = .ok out st' := by
  obtain ⟨r, st', hx, rfl⟩ := (collectDecoded_spec hfail hN h hout []).exists_ok
  exact ⟨st', hx⟩

theorem answers_of_fits (hfail : NeverFails σ) (hN : 0 < N) (hdepth : N ≤ maxStoreDepth)
    (h : Backs slot st f) (hfits : SizeFits N elementBytes radius) :
    Answers cube codec elementBytes D R center radius st := by
  have hvalue := valueAt_backs hfail hN h
  constructor
  · rw [mapProximity_fits hdepth hfits, hvalue]
    obtain ⟨r, st', hx, rfl, -⟩ := (collect_spec (I := fun st => Backs slot st f)
      (fun p _ h => lookup_spec hfail hN h .map p) h (cube D R center radius)).exists_ok
    exact ⟨st', hx⟩
  · intro out hout
    rw [hvalue] at hout
    exact storeProximity_answers hfail hN h hout

theorem fits_of_answers (hdepth : N ≤ maxStoreDepth)
    (h : Answers cube codec elementBytes D R center radius st) : SizeFits N elementBytes radius := by
  by_contra hunfit
  obtain ⟨st', hok⟩ := h.map
  have hpanics : ∃ cause, mapProximity cube elementBytes D R center radius st =
      .error (.panic cause) st := mapProximity_unfit hdepth hunfit
  obtain ⟨cause, hpanic⟩ := hpanics
  rw [hpanic] at hok
  cases hok

section
variable {cube : Cube 0} {center : CoordPath 0} {st : CoordMapStore 64 0 σ}

theorem valueAt_pathless : valueAt st = fun _ => none := by
  funext p
  rw [valueAt, getPath_pathless]

theorem foundIn_pathless (ps : List (CoordPath 0)) : foundIn (valueAt st) ps = [] := by
  rw [valueAt_pathless]
  simp [foundIn]

/-- No path can be looked up, so the answer is empty or a panic. -/
theorem answers_pathless_iff :
    Answers cube codec elementBytes D R center radius st ↔
      SizeFits 0 elementBytes radius ∧ cube D R center radius = [] := by
  constructor
  · intro h
    have hfits := fits_of_answers (Nat.zero_le _) h
    refine ⟨hfits, ?_⟩
    obtain ⟨st', hok⟩ := h.map
    rw [mapProximity_fits (Nat.zero_le _) hfits] at hok
    cases hcube : cube D R center radius with
    | nil => rfl
    | cons p ps =>
      have hlookup : lookup .map p st = .error (.err (.map (.binding (.keyTooLong 0)))) st := by
        rw [lookup, focus]
        simp only [id, getPath_pathless]
        rfl
      rw [hcube, collect, List.foldlM_cons, bind_assoc, bind_apply, hlookup] at hok
      cases hok
  · intro h
    obtain ⟨hfits, hcube⟩ := h
    constructor
    · rw [mapProximity_fits (Nat.zero_le _) hfits, foundIn_pathless, hcube]
      exact ⟨st, rfl⟩
    · intro out hout
      rw [foundIn_pathless] at hout
      cases hout
      rw [storeProximity, hcube]
      exact ⟨st, rfl⟩

end

/-- In every state that a run reaches, and for every radius, the two queries give the same answer
exactly where the size of the result vector can be computed and reserved. -/
theorem proximity_answers_iff (hfail : NeverFails σ) (hN : N ≤ maxStoreDepth) {o : σ}
    (ho : ByteOrigin.bytes o = []) (d : SlotSize) (cube : Cube N) (codec : Codec V)
    (elementBytes : ℕ) :
    ∃ st : CoordMapStore 64 N σ, CoordMapStore.new o d.val = .ok st ∧
      ∀ (xs : List (Step N)) (D R : ℕ) (center : CoordPath N) (radius : ℕ),
        Answers cube codec elementBytes D R center radius (run Step.perform xs st).2 ↔
          SizeFits N elementBytes radius ∧ (0 < N ∨ cube D R center radius = []) := by
  cases N with
  | zero =>
    obtain ⟨st, hnew, -⟩ := pathless_new o d
    refine ⟨st, hnew, fun xs D R center radius => ?_⟩
    simp [answers_pathless_iff]
  | succ n =>
    obtain ⟨st, hnew, hst, -⟩ := refines_new ho (Nat.succ_pos n) d
    refine ⟨st, hnew, fun xs D R center radius => ?_⟩
    obtain ⟨-, hfinal⟩ := run_steps hfail (Nat.succ_pos n) hN hst xs
    have hbacks : Backs _ (run Step.perform xs st).2 _ := ⟨_, hfinal, rfl, rfl⟩
    constructor
    · intro h
      exact ⟨fits_of_answers hN h, .inl (Nat.succ_pos n)⟩
    · intro h
      exact answers_of_fits hfail (Nat.succ_pos n) hN hbacks h.1

def near (radius : ℕ) (c : Coord) : List Coord :=
  (List.finRange nValid).filter fun x => x.val ≤ c.val + radius ∧ c.val ≤ x.val + radius

def boxCoords (radius : ℕ) : List Coord → List (List Coord)
  | [] => [[]]
  | c :: rest => (near radius c).flatMap fun x => (boxCoords radius rest).map (List.cons x)

theorem length_boxCoords {radius : ℕ} {cs l : List Coord} (h : l ∈ boxCoords radius cs) :
    l.length = cs.length := by
  induction cs generalizing l with
  | nil => simp_all [boxCoords]
  | cons c cs ih =>
    obtain ⟨x, -, hx⟩ := List.mem_flatMap.mp h
    obtain ⟨rest, hrest, rfl⟩ := List.mem_map.mp hx
    simp [ih hrest]

def box : Cube N := fun _ _ center radius =>
  (boxCoords radius center.coords).attach.map fun l =>
    ⟨l.val, (length_boxCoords l.property).trans center.length_coords⟩

theorem proximity_answers_iff_box :
    ∃ st : CoordMapStore 64 2 IdealOrigin, CoordMapStore.new ⟨[]⟩ 16 = .ok st ∧
      ∀ (xs : List (Step 2)) (center : CoordPath 2),
        Answers box byteCodec 32 2 1 center 1 (run Step.perform xs st).2 := by
  obtain ⟨st, hnew, hall⟩ := proximity_answers_iff (N := 2) IdealOrigin.neverFails (by decide)
    (o := ⟨[]⟩) rfl ⟨16, by decide⟩ box byteCodec 32
  refine ⟨st, hnew, fun xs center => ?_⟩
  exact (hall xs 2 1 center 1).mpr ⟨⟨by decide, by decide, by decide⟩, .inl Nat.two_pos⟩

/-- With radius `2 ^ 30` at depth two the box is the whole space, on an empty store the answer is
empty, and the query of the map asks for more than `2 ^ 62` elements. -/
theorem wide_radius_panics :
    ∃ st : CoordMapStore 64 2 IdealOrigin, CoordMapStore.new ⟨[]⟩ 16 = .ok st ∧
      (∃ cause, mapProximity box 32 2 1 (CoordPath.zero 2) (2 ^ 30) st =
        .error (.panic cause) st) ∧
      (∃ st', storeProximity box byteCodec 2 1 (CoordPath.zero 2) (2 ^ 30) st = .ok [] st') ∧
      ¬Answers box byteCodec 32 2 1 (CoordPath.zero 2) (2 ^ 30) st := by
  obtain ⟨st, hnew, hst⟩ :=
    backs_new Nat.two_pos (o := (⟨[]⟩ : IdealOrigin)) rfl (N := 2) ⟨16, by decide⟩
  have hunfit : ¬SizeFits 2 32 (2 ^ 30) := fun h => absurd h.request (by decide)
  refine ⟨st, hnew, mapProximity_unfit (by decide) hunfit, ?_, ?_⟩
  · have hempty (ps : List (CoordPath 2)) : foundIn (fun _ => none) ps = [] := by simp [foundIn]
    apply storeProximity_answers IdealOrigin.neverFails Nat.two_pos hst
    rw [hempty]
    exact List.Forall₂.nil
  · exact fun h => hunfit (fits_of_answers (by decide) h)

end Chton.ProximityQueries
