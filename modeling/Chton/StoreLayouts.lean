import Chton.CoordMapProgram
import Chton.IntervalTilings
import Mathlib.Data.Set.Insert
import Mathlib.Logic.Function.Basic

/-!
# What the bytes of a store mean

A layout is the abstract content of the allocated area. `ptr` gives the address a
coordinate prefix leads to: the root for the empty prefix, a node for a shorter
prefix, a record for a full path, zero where nothing is linked. `val` holds the
record contents, `free` the free list, and `lost` the spans that were allocated
but never linked because an origin call failed.

A valid layout is a tiling: the area between the end of the root and the bump
pointer is split without overlap among the linked nodes and records, the free
records and the lost spans. The operations below are the store's own operations
stated on layouts. They are deterministic, overflow of the bump pointer included,
so two stores with the same layout cannot be told apart.
-/

namespace Chton.StoreLayouts
open ByteRegions Origins TreeStrategyProgram CoordMapProgram IntervalTilings

abbrev rootEnd : ℕ := rootOffset + nodeSpan

theorem bitmapBytes_eq : bitmapBytes = 1397 := rfl

theorem rootEnd_eq : rootEnd = 90837 := rfl

def slotAddr (n : ℕ) (c : Coord) : ℕ := n + bitmapBytes + c.val * slotBytes

structure Layout where
  ptr : List Coord → ℕ
  val : List Coord → Bytes
  free : List ℕ
  lost : Set (ℕ × ℕ)
  bump : ℕ
  slot : ℕ

/-- Who holds a span of the allocated area. -/
inductive Owner where
  | entry (q : List Coord)
  | free (addr : ℕ)
  | lost (addr size : ℕ)
  deriving DecidableEq

namespace Layout

/-- A full path leads to a record slot, a shorter prefix to a node. -/
def spanOf (N : ℕ) (L : Layout) (q : List Coord) : ℕ := if q.length = N then L.slot else nodeSpan

def start (L : Layout) : Owner → ℕ
  | .entry q => L.ptr q
  | .free a => a
  | .lost a _ => a

def size (N : ℕ) (L : Layout) : Owner → ℕ
  | .entry q => L.spanOf N q
  | .free _ => L.slot
  | .lost _ n => n

/-- The root node is outside the allocated area and has no owner. -/
def Owns (L : Layout) : Owner → Prop
  | .entry q => q ≠ [] ∧ L.ptr q ≠ 0
  | .free a => a ∈ L.free
  | .lost a n => (a, n) ∈ L.lost

/-- The addresses form a tree of depth at most `N` under the root. -/
structure Wired (N : ℕ) (ptr : List Coord → ℕ) : Prop where
  root : ptr [] = rootOffset
  below : ∀ q c, ptr q = 0 → ptr (q ++ [c]) = 0
  deep : ∀ q, N < q.length → ptr q = 0

structure Valid (N : ℕ) (L : Layout) : Prop extends Wired N L.ptr where
  tiling : Tiling {o | L.Owns o} L.start (L.size N) rootEnd L.bump
  nodup : L.free.Nodup
  bump_lt : L.bump < 2 ^ 64
  slot_ge : 8 ≤ L.slot
  slot_lt : L.slot < 2 ^ 64
  fits : ∀ q, q.length = N → L.ptr q ≠ 0 → (L.val q).length + 8 ≤ L.slot
  sized : ∀ q, q.length = N → L.ptr q ≠ 0 → (L.val q).length < 2 ^ 63

def live (N : ℕ) (L : Layout) : Set (List Coord) := {q | q.length = N ∧ L.ptr q ≠ 0}

/-- The finite map a layout stands for. -/
def contents {N : ℕ} (L : Layout) (p : CoordPath N) : Option Bytes :=
  if L.ptr p.coords = 0 then none else some (L.val p.coords)

def empty (slot : ℕ) : Layout where
  ptr q := if q = [] then rootOffset else 0
  val _ := []
  free := []
  lost := ∅
  bump := rootEnd
  slot := slot

def link (L : Layout) (q : List Coord) : Layout :=
  { L with ptr := Function.update L.ptr q L.bump, bump := L.bump + nodeSpan }

/-- Create the missing nodes from `pre` down to the leaf node of `pre ++ rest`; the flag says
whether they all fit below `2 ^ 64`. -/
def descend (L : Layout) (pre : List Coord) : List Coord → Layout × Bool
  | [] => (L, true)
  | c :: rest =>
    if rest = [] then (L, true) else
    if L.ptr (pre ++ [c]) = 0 then
      if L.bump + nodeSpan < 2 ^ 64 then descend (L.link (pre ++ [c])) (pre ++ [c]) rest
      else (L, false)
    else descend L (pre ++ [c]) rest

/-- The slot that looking up `pre ++ rest` from the node of `pre` ends in. -/
def resolve (L : Layout) (pre : List Coord) : List Coord → Slot
  | [] => ⟨L.ptr pre, 0, slotAddr (L.ptr pre) 0, 0⟩
  | c :: rest =>
    if rest = [] then ⟨L.ptr pre, c, slotAddr (L.ptr pre) c, L.ptr (pre ++ [c])⟩ else
    if L.ptr (pre ++ [c]) = 0 then ⟨L.ptr pre, c, slotAddr (L.ptr pre) c, 0⟩ else
    resolve L (pre ++ [c]) rest

/-- Take a record slot off the free list or from the bump area. -/
def takeRecord (L : Layout) : Option (ℕ × Layout) :=
  match L.free with
  | r :: fs => some (r, { L with free := fs })
  | [] =>
    if L.bump + L.slot < 2 ^ 64 then some (L.bump, { L with bump := L.bump + L.slot }) else none

def place (L : Layout) (q : List Coord) (r : ℕ) (v : Bytes) : Layout :=
  { L with ptr := Function.update L.ptr q r, val := Function.update L.val q v }

def rewrite (L : Layout) (q : List Coord) (v : Bytes) : Layout :=
  { L with val := Function.update L.val q v }

def release (L : Layout) (q : List Coord) : Layout :=
  { L with ptr := Function.update L.ptr q 0, free := L.ptr q :: L.free }

/-- Allocated but never linked. -/
def lose (L : Layout) (a n : ℕ) : Layout := { L with lost := insert (a, n) L.lost }

/-- The error of an allocation that would move the bump pointer to `2 ^ 64` or beyond. -/
def areaFull (L : Layout) : Stop BindingError :=
  .err (.origin (.outOfBounds L.bump (2 ^ 64 - 1)))

/-- A node area that was cut from the bump area but not linked. -/
def loseNode (L : Layout) : Layout :=
  { L.lose L.bump nodeSpan with bump := L.bump + nodeSpan }

/-- The second half of `put`, on a layout in which the leaf node of the path exists. -/
def settle {N : ℕ} (G : Layout) (p : CoordPath N) (v : Bytes) :
    Except (Stop MapError) (Option Bytes) × Layout :=
  if G.ptr p.coords ≠ 0 then (.ok (some (G.val p.coords)), G.rewrite p.coords v) else
  match G.takeRecord with
  | some (r, A) => (.ok none, A.place p.coords r v)
  | none => (.error (G.areaFull.map .binding), G)

def put {N : ℕ} (L : Layout) (p : CoordPath N) (v : Bytes) :
    Except (Stop MapError) (Option Bytes) × Layout :=
  if v.length > L.slot - lengthBytes then
    (.error (.err (.valueTooLarge v.length (L.slot - lengthBytes))), L)
  else
  match L.descend [] p.coords with
  | (G, true) => G.settle p v
  | (G, false) => (.error (G.areaFull.map .binding), G)

def remove {N : ℕ} (L : Layout) (p : CoordPath N) :
    Except (Stop MapError) (Option Bytes) × Layout :=
  if L.ptr p.coords = 0 then (.ok none, L)
  else (.ok (some (L.val p.coords)), L.release p.coords)

end Layout
end Chton.StoreLayouts
