import Chton.PlaceValues
import Chton.TextBytes
import Chton.TreeStrategyProgram
import Mathlib.Data.List.Induction

/-!
# String keys as coordinate paths

A string of exactly `M - 1` Hangul characters puts one character on each axis and
marks the last axis with zero. Any other string is read as a base-256 numeral, written
in base 11172 on the axes `0..M-2`, and marked with its length. The bound on the depth
is asserted by the source when the function is compiled.

`fromChar` stands for the character table of the coordinate type, which is not part of
this repository.
-/

namespace Chton.StringKeys
open TextBytes Origins TreeStrategyProgram PlaceValues

inductive KeyError where
  | empty
  | tooLong (len depth : ℕ)
  deriving DecidableEq, Repr

/-- `Coord::new`. -/
def newCoord (i : UInt16) : Option Coord :=
  if h : i.toNat < nValid then some ⟨i.toNat, h⟩ else none

/-- The registers of the division loop; `started` drops the leading zeros. -/
structure Division where
  rem : UInt32
  quotient : List UInt8
  started : Bool

def Division.step (s : Division) (b : UInt8) : Division :=
  let cur := s.rem * 256 + b.toUInt32
  let q := cur / 11172
  if q ≠ 0 ∨ s.started then ⟨cur % 11172, s.quotient ++ [q.toUInt8], true⟩ else
  ⟨cur % 11172, s.quotient, s.started⟩

/-- Divide a big-endian byte vector by 11172. -/
def divmod11172 (value : List UInt8) : List UInt8 × UInt16 :=
  let s := value.foldl Division.step ⟨0, [], false⟩
  (if s.quotient = [] then [0] else s.quotient, s.rem.toUInt16)

section
variable {ε α : Type}

def unwrap : Option α → Except (Stop ε) α
  | some a => .ok a
  | none => .error (.panic .unwrap)

/-- `coords[i] = c.unwrap()` along the list, over a path of zeros. -/
def assign {M : ℕ} (cs : List (Option Coord)) : Except (Stop ε) (CoordPath M) :=
  cs.zipIdx.foldlM (fun coords c => do
    let coord ← unwrap c.1
    pure (coords.set c.2 coord)) (CoordPath.zero M)

end

/-- The division loop: digit `M - 2 - i` is the remainder of pass `i`. -/
def divideOut (M : ℕ) (passes : ℕ) (bytes : List UInt8) : List UInt16 × List UInt8 :=
  (List.range passes).foldl (fun s i =>
    let d := divmod11172 s.2
    (s.1.set (M - 2 - i) d.2, d.1)) (List.replicate M 0, bytes)

def encodeGeneral (M : ℕ) (key : String) : Except (Stop KeyError) (CoordPath M) := do
  let bytes := asBytes key
  let len := bytes.length
  if len = 0 then throw (.err .empty) else
  let s := divideOut M (M - 1) bytes
  if s.2.any (· ≠ 0) then throw (.err (.tooLong len (M - 1))) else
  let coords ← assign ((s.1.take (M - 1)).map newCoord)
  if len < 2 ^ 16 then
    match newCoord (UInt16.ofNat len) with
    | some marker => pure (coords.set (M - 1) marker)
    | none => throw (.err (.tooLong len (M - 1)))
  else throw (.err (.tooLong len (M - 1)))

/-- `chars.len() == M - 1`, and each of them is a coordinate. -/
def Canonical (fromChar : Char → Option Coord) (M : ℕ) (key : String) : Prop :=
  key.toList.length = M - 1 ∧ ∀ c ∈ key.toList, (fromChar c).isSome

instance (fromChar : Char → Option Coord) (M : ℕ) (key : String) :
    Decidable (Canonical fromChar M key) :=
  have : Decidable (∀ c ∈ key.toList, (fromChar c).isSome) := List.decidableBAll _ _
  inferInstanceAs (Decidable (_ ∧ _))

def strToCoordpath (fromChar : Char → Option Coord) (M : ℕ) (key : String) :
    Except (Stop KeyError) (CoordPath M) :=
  if Canonical fromChar M key then assign (key.toList.map fromChar) else encodeGeneral M key

def number (bytes : List UInt8) : ℕ := value 256 (bytes.map UInt8.toNat)

theorem number_inj {xs ys : List UInt8} (hlen : xs.length = ys.length)
    (h : number xs = number ys) : xs = ys := by
  have hlt (zs : List UInt8) : ∀ x ∈ zs.map UInt8.toNat, x < 256 := by
    intro x hx
    obtain ⟨z, -, rfl⟩ := List.mem_map.mp hx
    exact z.toNat_lt
  have hmap : xs.map UInt8.toNat = ys.map UInt8.toNat := by
    apply value_inj (by decide) _ (hlt xs) (hlt ys) h
    rw [List.length_map, List.length_map, hlen]
  exact List.map_injective_iff.mpr (fun _ _ => UInt8.toNat_inj.mp) hmap

theorem number_eq_zero {xs : List UInt8} : number xs = 0 ↔ xs.any (· ≠ 0) = false := by
  rw [number, value_eq_zero (by decide)]
  simp [← UInt8.toNat_inj]

/-- What has been divided so far; without a first quotient digit there is no quotient. -/
structure Division.Divides (s : Division) (bytes : List UInt8) : Prop where
  rem_lt : s.rem.toNat < 11172
  eq : number s.quotient * 11172 + s.rem.toNat = number bytes
  unstarted : s.started = false → s.quotient = []

/-- The machine words of a division step do not wrap around. -/
theorem toNat_cur {r : UInt32} (hr : r.toNat < 11172) (b : UInt8) :
    (r * 256 + b.toUInt32).toNat = r.toNat * 256 + b.toNat := by
  have hb : b.toNat < 256 := b.toNat_lt
  rw [UInt32.toNat_add, UInt32.toNat_mul, UInt8.toNat_toUInt32]
  change (r.toNat * 256 % 2 ^ 32 + b.toNat) % 2 ^ 32 = _
  omega

theorem Division.Divides.step {s : Division} {bytes : List UInt8} (h : s.Divides bytes)
    (b : UInt8) : (s.step b).Divides (bytes ++ [b]) := by
  have hb : b.toNat < 256 := b.toNat_lt
  have hcur := toNat_cur h.rem_lt b
  have hrem : ((s.rem * 256 + b.toUInt32) % 11172).toNat =
      (s.rem.toNat * 256 + b.toNat) % 11172 := by
    rw [UInt32.toNat_mod, hcur]
    rfl
  have hq : ((s.rem * 256 + b.toUInt32) / 11172).toNat =
      (s.rem.toNat * 256 + b.toNat) / 11172 := by
    rw [UInt32.toNat_div, hcur]
    rfl
  have hdigit : ((s.rem * 256 + b.toUInt32) / 11172).toUInt8.toNat =
      (s.rem.toNat * 256 + b.toNat) / 11172 := by
    rw [UInt32.toNat_toUInt8, hq, Nat.mod_eq_of_lt (div_step_lt h.rem_lt hb)]
  have hstep : number (s.quotient ++ [((s.rem * 256 + b.toUInt32) / 11172).toUInt8]) * 11172 +
      (s.rem.toNat * 256 + b.toNat) % 11172 = number (bytes ++ [b]) := by
    rw [number, number, List.map_append, List.map_append, List.map_singleton, List.map_singleton,
      hdigit]
    exact value_div_step h.eq b.toNat
  by_cases hpush : (s.rem * 256 + b.toUInt32) / 11172 ≠ 0 ∨ s.started
  · have hs : s.step b = ⟨_, s.quotient ++ [_], true⟩ := if_pos hpush
    rw [hs]
    constructor
    · rw [hrem]
      exact Nat.mod_lt _ (by decide)
    · rw [hrem]
      exact hstep
    · exact fun hfalse => nomatch hfalse
  · -- a zero digit in front of the quotient is dropped and its number is still zero
    have hs : s.step b = ⟨_, s.quotient, s.started⟩ := if_neg hpush
    obtain ⟨hzero, hstarted⟩ := not_or.mp hpush
    have hempty : s.quotient = [] := h.unstarted (Bool.eq_false_iff.mpr hstarted)
    rw [not_not.mp hzero, hempty] at hstep
    rw [hs]
    constructor
    · rw [hrem]
      exact Nat.mod_lt _ (by decide)
    · rw [hrem, hempty]
      exact hstep
    · exact h.unstarted

theorem Division.Divides.foldl {s : Division} {done : List UInt8} (h : s.Divides done)
    (bytes : List UInt8) : (bytes.foldl Division.step s).Divides (done ++ bytes) := by
  induction bytes generalizing s done with
  | nil =>
    rw [List.append_nil]
    exact h
  | cons b bytes ih =>
    have hnext := ih (h.step b)
    rw [List.append_assoc] at hnext
    exact hnext

theorem divmod11172_spec (bytes : List UInt8) :
    number (divmod11172 bytes).1 = number bytes / 11172 ∧
    (divmod11172 bytes).2.toNat = number bytes % 11172 := by
  have hstart : (⟨0, [], false⟩ : Division).Divides [] := ⟨by decide, rfl, fun _ => rfl⟩
  have hfold := hstart.foldl bytes
  rw [List.nil_append] at hfold
  generalize hs : bytes.foldl Division.step ⟨0, [], false⟩ = s at hfold
  have hlt := hfold.rem_lt
  have heq := hfold.eq
  have hdiv : number bytes / 11172 = number s.quotient := by omega
  have hmod : number bytes % 11172 = s.rem.toNat := by omega
  rw [divmod11172, hs, hdiv, hmod]
  constructor
  · by_cases hempty : s.quotient = []
    · rw [if_pos hempty, hempty]
      rfl
    · rw [if_neg hempty]
  · change s.rem.toUInt16.toNat = _
    rw [UInt32.toNat_toUInt16, Nat.mod_eq_of_lt (Nat.lt_trans hlt (by decide))]

/-- After `k` passes the last `k` payload digits stand and the rest has been divided out. -/
theorem divideOut_spec {m k : ℕ} (hk : k ≤ m) (bytes : List UInt8) :
    (divideOut (m + 1) k bytes).1.map UInt16.toNat =
      List.replicate (m - k) 0 ++ digits 11172 k (number bytes) ++ [0] ∧
    number (divideOut (m + 1) k bytes).2 = number bytes / 11172 ^ k := by
  induction k with
  | zero =>
    rw [divideOut]
    simp [digits, List.replicate_succ']
  | succ k ih =>
    obtain ⟨hdigits, hrest⟩ := ih (by omega)
    have hpass : divideOut (m + 1) (k + 1) bytes =
        ((divideOut (m + 1) k bytes).1.set (m - 1 - k) (divmod11172 (divideOut (m + 1) k bytes).2).2,
          (divmod11172 (divideOut (m + 1) k bytes).2).1) := by
      rw [divideOut, List.range_succ, List.foldl_append, ← divideOut]
      rfl
    obtain ⟨hquot, hrem⟩ := divmod11172_spec (divideOut (m + 1) k bytes).2
    rw [hrest] at hquot hrem
    have hzeros : List.replicate (m - k) 0 = List.replicate (m - 1 - k) 0 ++ [0] := by
      rw [← List.replicate_succ']
      congr 1
      omega
    constructor
    · have hlen : m - (k + 1) = m - 1 - k := by omega
      rw [hpass, List.map_set, hdigits, hrem, hzeros, digits, hlen]
      simp
    · rw [hpass]
      exact hquot.trans (by rw [Nat.div_div_eq_div_mul, ← Nat.pow_succ])

theorem assign_spec {ε : Type} {M : ℕ} (xs : List Coord) (hlen : xs.length ≤ M) :
    ∃ p : CoordPath M, (assign (xs.map some) : Except (Stop ε) (CoordPath M)) = .ok p ∧
      p.coords = xs ++ List.replicate (M - xs.length) 0 := by
  induction xs using List.reverseRecOn with
  | nil => exact ⟨_, rfl, rfl⟩
  | append_singleton xs x ih =>
    rw [List.length_append, List.length_singleton] at hlen
    obtain ⟨p, hp, hcoords⟩ := ih (by omega)
    refine ⟨p.set xs.length x, ?_, ?_⟩
    · rw [assign, List.map_append, List.zipIdx_append, List.foldlM_append, ← assign, hp]
      simp [unwrap]
      rfl
    · have hrest : M - xs.length = M - (xs.length + 1) + 1 := by omega
      simp [CoordPath.set, hcoords, hrest, List.replicate_succ]

/-- The payload axes and the marker axis. -/
structure Marked {M : ℕ} (p : CoordPath M) (payload : List Coord) (marker : Coord) : Prop where
  coords : p.coords = payload ++ [marker]
  length_payload : payload.length = M - 1

theorem Marked.inj {M : ℕ} {p : CoordPath M} {xs ys : List Coord} {x y : Coord}
    (h : Marked p xs x) (h' : Marked p ys y) : xs = ys ∧ x = y := by
  obtain ⟨hpay, hmark⟩ := List.append_inj (h.coords.symm.trans h'.coords)
    (h.length_payload.trans h'.length_payload.symm)
  exact ⟨hpay, List.singleton_inj.mp hmark⟩

theorem map_eq_of_isSome {α β : Type} {f : α → Option β} {xs : List α}
    (h : ∀ x ∈ xs, (f x).isSome) : xs.map f = (xs.filterMap f).map some := by
  induction xs with
  | nil => rfl
  | cons x xs ih =>
    obtain ⟨hx, hxs⟩ := List.forall_mem_cons.mp h
    obtain ⟨y, hy⟩ := Option.isSome_iff_exists.mp hx
    rw [List.map_cons, List.filterMap_cons_some hy, List.map_cons, hy, ih hxs]

theorem canonical_spec {fromChar : Char → Option Coord} {M : ℕ} (hM : 2 ≤ M) {key : String}
    (h : Canonical fromChar M key) :
    ∃ (p : CoordPath M) (payload : List Coord),
      strToCoordpath fromChar M key = .ok p ∧ Marked p payload 0 ∧
      key.toList.map fromChar = payload.map some := by
  have hmap := map_eq_of_isSome h.2
  have hlen : (key.toList.filterMap fromChar).length = M - 1 := by
    rw [← h.1, ← List.length_map some, ← hmap, List.length_map]
  obtain ⟨p, hp, hcoords⟩ := assign_spec (ε := KeyError) _ (hlen.trans_le (Nat.sub_le M 1))
  refine ⟨p, _, ?_, ⟨?_, hlen⟩, hmap⟩
  · rw [strToCoordpath, if_pos h, hmap]
    exact hp
  · have hone : M - (M - 1) = 1 := by omega
    rw [hcoords, hlen, hone]
    rfl

theorem newCoord_of_lt {i : UInt16} (h : i.toNat < nValid) : newCoord i = some ⟨i.toNat, h⟩ :=
  dif_pos h

/-- Digits below 11172 are coordinates. -/
theorem newCoord_digits {us : List UInt16} (h : ∀ x ∈ us.map UInt16.toNat, x < nValid) :
    ∃ payload : List Coord, us.map newCoord = payload.map some ∧
      payload.map Fin.val = us.map UInt16.toNat := by
  induction us with
  | nil => exact ⟨[], rfl, rfl⟩
  | cons u us ih =>
    obtain ⟨hu, hus⟩ := List.forall_mem_cons.mp h
    obtain ⟨payload, hmap, hval⟩ := ih hus
    refine ⟨⟨u.toNat, hu⟩ :: payload, ?_, ?_⟩
    · rw [List.map_cons, List.map_cons, newCoord_of_lt hu, hmap]
    · rw [List.map_cons, List.map_cons, hval]

/-- What a general key of `m + 1` axes has to fit in. -/
def Fits (m : ℕ) (key : String) : Prop :=
  number (asBytes key) < 11172 ^ m ∧ (asBytes key).length < nValid

/-- The division loop leaves nothing over, and its digits are written to the payload axes. -/
theorem payload_spec {m : ℕ} {bytes : List UInt8} (h : number bytes < 11172 ^ m) :
    ∃ (p : CoordPath (m + 1)) (payload : List Coord),
      (divideOut (m + 1) m bytes).2.any (· ≠ 0) = false ∧
      (assign (((divideOut (m + 1) m bytes).1.take m).map newCoord) :
        Except (Stop KeyError) (CoordPath (m + 1))) = .ok p ∧
      Marked p payload 0 ∧ payload.map Fin.val = digits 11172 m (number bytes) := by
  obtain ⟨hdigits, hrest⟩ := divideOut_spec (Nat.le_refl m) bytes
  have htake : ((divideOut (m + 1) m bytes).1.take m).map UInt16.toNat =
      digits 11172 m (number bytes) := by
    rw [List.map_take, hdigits, Nat.sub_self, List.replicate_zero, List.nil_append]
    exact List.take_left' (length_digits _ _ _)
  have hlt : ∀ x ∈ ((divideOut (m + 1) m bytes).1.take m).map UInt16.toNat, x < nValid := by
    rw [htake]
    intro x hx
    exact lt_of_mem_digits (by decide) hx
  obtain ⟨payload, hmap, hval⟩ := newCoord_digits hlt
  rw [htake] at hval
  have hpayload : payload.length = m := by
    rw [← List.length_map Fin.val, hval, length_digits]
  obtain ⟨p, hp, hcoords⟩ := assign_spec payload (hpayload.trans_le (Nat.le_succ m))
  refine ⟨p, payload, ?_, ?_, ⟨?_, hpayload⟩, hval⟩
  · apply number_eq_zero.mp
    rw [hrest, Nat.div_eq_of_lt h]
  · rw [hmap]
    exact hp
  · have hone : m + 1 - m = 1 := by omega
    rw [hcoords, hpayload, hone]
    rfl

theorem toNat_marker {n : ℕ} (h : n < 2 ^ 16) : (UInt16.ofNat n).toNat = n :=
  UInt16.toNat_ofNat_of_lt h

theorem encodeGeneral_fits {m : ℕ} {key : String} (hkey : (asBytes key).length ≠ 0)
    (h : Fits m key) :
    ∃ (p : CoordPath (m + 1)) (payload : List Coord) (marker : Coord),
      encodeGeneral (m + 1) key = .ok p ∧ Marked p payload marker ∧
      marker.val = (asBytes key).length ∧
      payload.map Fin.val = digits 11172 m (number (asBytes key)) := by
  obtain ⟨hnumber, hlen⟩ := h
  obtain ⟨p, payload, hzero, hp, hmarked, hval⟩ := payload_spec hnumber
  have hshort : (asBytes key).length < 2 ^ 16 := Nat.lt_trans hlen (by decide)
  have hof := toNat_marker hshort
  have hmarker : newCoord (UInt16.ofNat (asBytes key).length) = some ⟨_, hlen⟩ := by
    rw [newCoord_of_lt (hof.symm ▸ hlen)]
    exact congrArg some (Fin.ext hof)
  refine ⟨p.set m ⟨_, hlen⟩, payload, ⟨_, hlen⟩, ?_, ⟨?_, hmarked.length_payload⟩, rfl, hval⟩
  · simp only [encodeGeneral, if_neg hkey, Nat.add_sub_cancel, hzero, Bool.false_eq_true, if_false,
      hp, if_pos hshort, hmarker]
    rfl
  · have hpayload : payload.length = m := hmarked.length_payload
    simp [CoordPath.set, hmarked.coords, hpayload]

theorem encodeGeneral_empty {m : ℕ} {key : String} (hkey : (asBytes key).length = 0) :
    encodeGeneral (m + 1) key = .error (.err .empty) :=
  if_pos hkey

theorem encodeGeneral_long {m : ℕ} {key : String} (hkey : (asBytes key).length ≠ 0)
    (h : ¬ Fits m key) :
    encodeGeneral (m + 1) key = .error (.err (.tooLong (asBytes key).length m)) := by
  by_cases hnumber : number (asBytes key) < 11172 ^ m
  · -- the digits fit, so the length is out of the range of the marker
    have hlen : ¬ (asBytes key).length < nValid := fun hlt => h ⟨hnumber, hlt⟩
    obtain ⟨p, payload, hzero, hp, -⟩ := payload_spec hnumber
    by_cases hshort : (asBytes key).length < 2 ^ 16
    · have hmarker : newCoord (UInt16.ofNat (asBytes key).length) = none := by
        apply dif_neg
        rw [toNat_marker hshort]
        exact hlen
      simp only [encodeGeneral, if_neg hkey, Nat.add_sub_cancel, hzero, Bool.false_eq_true,
        if_false, hp, if_pos hshort, hmarker]
      rfl
    · simp only [encodeGeneral, if_neg hkey, Nat.add_sub_cancel, hzero, Bool.false_eq_true,
        if_false, hp, if_neg hshort]
      rfl
  · have hrest := (divideOut_spec (Nat.le_refl m) (asBytes key)).2
    have hany : (divideOut (m + 1) m (asBytes key)).2.any (· ≠ 0) = true := by
      by_contra hzero
      rw [Bool.not_eq_true] at hzero
      have hdiv := number_eq_zero.mpr hzero
      rw [hrest, Nat.div_eq_zero_iff_lt (Nat.pow_pos (by decide))] at hdiv
      exact hnumber hdiv
    simp only [encodeGeneral, if_neg hkey, Nat.add_sub_cancel, if_pos hany]
    rfl

variable {fromChar : Char → Option Coord} {M : ℕ}

def Representable (fromChar : Char → Option Coord) (M : ℕ) (key : String) : Prop :=
  Canonical fromChar M key ∨ ((asBytes key).length ≠ 0 ∧ Fits (M - 1) key)

/-- A key is mapped or refused; the mapping never panics. -/
theorem strToCoordpath_cases (hM : 2 ≤ M) (key : String) :
    ((∃ p, strToCoordpath fromChar M key = .ok p) ∧ Representable fromChar M key) ∨
    (∃ e, strToCoordpath fromChar M key = .error (.err e)) ∧ ¬ Representable fromChar M key := by
  obtain ⟨m, rfl⟩ : ∃ m, M = m + 1 := ⟨M - 1, by omega⟩
  by_cases hcanonical : Canonical fromChar (m + 1) key
  · obtain ⟨p, -, hp, -⟩ := canonical_spec hM hcanonical
    exact .inl ⟨⟨p, hp⟩, .inl hcanonical⟩
  · rw [strToCoordpath, if_neg hcanonical, Representable, Nat.add_sub_cancel,
      or_iff_right hcanonical]
    by_cases hkey : (asBytes key).length = 0
    · exact .inr ⟨⟨_, encodeGeneral_empty hkey⟩, fun h => h.1 hkey⟩
    · by_cases hfits : Fits m key
      · obtain ⟨p, -, -, hp, -⟩ := encodeGeneral_fits hkey hfits
        exact .inl ⟨⟨p, hp⟩, hkey, hfits⟩
      · exact .inr ⟨⟨_, encodeGeneral_long hkey hfits⟩, fun h => hfits h.2⟩

/-- What the path of a key says about the key, by format. -/
theorem path_spec (hM : 2 ≤ M) {key : String} {p : CoordPath M}
    (h : strToCoordpath fromChar M key = .ok p) :
    ∃ payload marker, Marked p payload marker ∧
      (Canonical fromChar M key ∧ marker.val = 0 ∧ key.toList.map fromChar = payload.map some ∨
        ¬ Canonical fromChar M key ∧ marker.val = (asBytes key).length ∧ marker.val ≠ 0 ∧
          value 11172 (payload.map Fin.val) = number (asBytes key)) := by
  obtain ⟨m, rfl⟩ : ∃ m, M = m + 1 := ⟨M - 1, by omega⟩
  by_cases hcanonical : Canonical fromChar (m + 1) key
  · obtain ⟨q, payload, hq, hmarked, hmap⟩ := canonical_spec hM hcanonical
    cases hq.symm.trans h
    exact ⟨payload, 0, hmarked, .inl ⟨hcanonical, rfl, hmap⟩⟩
  · rw [strToCoordpath, if_neg hcanonical] at h
    have hkey : (asBytes key).length ≠ 0 := by
      intro hkey
      rw [encodeGeneral_empty hkey] at h
      exact nomatch h
    have hfits : Fits m key := by
      by_contra hfits
      rw [encodeGeneral_long hkey hfits] at h
      exact nomatch h
    obtain ⟨q, payload, marker, hq, hmarked, hmarker, hval⟩ := encodeGeneral_fits hkey hfits
    cases hq.symm.trans h
    refine ⟨payload, marker, hmarked, .inr ⟨hcanonical, hmarker, hmarker.trans_ne hkey, ?_⟩⟩
    rw [hval, value_digits, Nat.mod_eq_of_lt hfits.1]

theorem eq_of_map_some {α β : Type} {f : α → Option β}
    (hinj : ∀ x y z, f x = some z → f y = some z → x = y) {xs ys : List α} {zs : List β}
    (hxs : xs.map f = zs.map some) (hys : ys.map f = zs.map some) : xs = ys := by
  induction zs generalizing xs ys with
  | nil =>
    rw [List.map_nil, List.map_eq_nil_iff] at hxs hys
    rw [hxs, hys]
  | cons z zs ih =>
    obtain ⟨x, xs, rfl, hx, hxs⟩ := List.map_eq_cons_iff.mp hxs
    obtain ⟨y, ys, rfl, hy, hys⟩ := List.map_eq_cons_iff.mp hys
    rw [hinj x y z hx hy, ih hxs hys]

theorem eq_of_strToCoordpath_eq
    (hinj : ∀ c d x, fromChar c = some x → fromChar d = some x → c = d) (hM : 2 ≤ M)
    {a b : String} {p : CoordPath M} (ha : strToCoordpath fromChar M a = .ok p)
    (hb : strToCoordpath fromChar M b = .ok p) : a = b := by
  obtain ⟨xs, x, hmarked, hcases⟩ := path_spec hM ha
  obtain ⟨ys, y, hmarked', hcases'⟩ := path_spec hM hb
  obtain ⟨rfl, rfl⟩ := hmarked.inj hmarked'
  rcases hcases with ⟨ha, hx, hmap⟩ | ⟨ha, hx, hpos, hval⟩
  · rcases hcases' with ⟨hb, -, hmap'⟩ | ⟨hb, -, hpos, -⟩
    · apply String.toList_inj.mp
      exact eq_of_map_some hinj hmap hmap'
    · exact absurd hx hpos
  · rcases hcases' with ⟨hb, hx', -⟩ | ⟨hb, hx', -, hval'⟩
    · exact absurd hx' hpos
    · apply asBytes_inj
      exact number_inj (hx.symm.trans hx') (hval.symm.trans hval')

/-- `key` between `i` leading and `j` trailing NUL characters. -/
def padded (i : ℕ) (key : String) (j : ℕ) : String :=
  String.ofList (List.replicate i '\x00' ++ key.toList ++ List.replicate j '\x00')

theorem padded_ne {i j : ℕ} (key : String) (h : 0 < i + j) : padded i key j ≠ key := by
  intro heq
  have hlen := congrArg (fun s : String => s.toList.length) heq
  simp only [padded, String.toList_ofList, List.length_append, List.length_replicate] at hlen
  omega

/-- Two keys share a path only if they are equal: within the canonical format, within the
general one, and across the two, which the marker axis tells apart. -/
theorem strToCoordpath_injective
    (hinj : ∀ c d x, fromChar c = some x → fromChar d = some x → c = d) (hM : 2 ≤ M) :
    (∀ a b p q, strToCoordpath fromChar M a = .ok p → strToCoordpath fromChar M b = .ok q →
      (p = q ↔ a = b)) ∧
    (∀ a p, strToCoordpath fromChar M a = .ok p → ∃ marker, p.coords[M - 1]? = some marker ∧
      marker.val = if Canonical fromChar M a then 0 else (asBytes a).length) ∧
    (∀ a b p q, strToCoordpath fromChar M a = .ok p → strToCoordpath fromChar M b = .ok q →
      Canonical fromChar M a → ¬ Canonical fromChar M b → p ≠ q) ∧
    ∀ a i j p q, 0 < i + j → strToCoordpath fromChar M a = .ok p →
      strToCoordpath fromChar M (padded i a j) = .ok q → p ≠ q := by
  have hinjective : ∀ a b p q, strToCoordpath fromChar M a = .ok p →
      strToCoordpath fromChar M b = .ok q → p = q → a = b := by
    intro a b p q ha hb hpq
    subst hpq
    exact eq_of_strToCoordpath_eq hinj hM ha hb
  refine ⟨?_, ?_, ?_, ?_⟩
  · intro a b p q ha hb
    constructor
    · exact hinjective a b p q ha hb
    · intro hab
      subst hab
      exact Except.ok.inj (ha.symm.trans hb)
  · intro a p ha
    obtain ⟨payload, marker, hmarked, hcases⟩ := path_spec hM ha
    refine ⟨marker, ?_, ?_⟩
    · rw [hmarked.coords, ← hmarked.length_payload]
      exact List.getElem?_concat_length
    · rcases hcases with ⟨hcanonical, hzero, -⟩ | ⟨hgeneral, hlen, -⟩
      · rw [if_pos hcanonical, hzero]
      · rw [if_neg hgeneral, hlen]
  · intro a b p q ha hb hcanonical hgeneral hpq
    rw [hinjective a b p q ha hb hpq] at hcanonical
    exact hgeneral hcanonical
  · intro a i j p q hpad ha hb hpq
    exact padded_ne a hpad (hinjective a _ p q ha hb hpq).symm

def hangul (c : Char) : Option Coord :=
  if h : 0xAC00 ≤ c.toNat ∧ c.toNat - 0xAC00 < nValid then some ⟨c.toNat - 0xAC00, h.2⟩ else none

theorem hangul_inj (c d : Char) (x : Coord) (hc : hangul c = some x) (hd : hangul d = some x) :
    c = d := by
  unfold hangul at hc hd
  split at hc
  next h =>
    split at hd
    next h' =>
      apply Char.toNat_inj.mp
      have hval := congrArg Fin.val (Option.some.inj (hc.trans hd.symm))
      simp only at hval
      omega
    next => exact nomatch hd
  next => exact nomatch hc

/-- A canonical key, a general one and the latter with a NUL in front, at depth 3. -/
theorem strToCoordpath_injective_hangul :
    ∃ p q r : CoordPath 3, strToCoordpath hangul 3 "가나" = .ok p ∧
      strToCoordpath hangul 3 "ab" = .ok q ∧ strToCoordpath hangul 3 "\x00ab" = .ok r ∧
      p ≠ q ∧ q ≠ r := by
  have h := strToCoordpath_injective hangul_inj (show 2 ≤ 3 by decide)
  have hp : strToCoordpath hangul 3 "가나" = .ok ⟨[0, 1176, 0], rfl⟩ := by decide +kernel
  have hq : strToCoordpath hangul 3 "ab" = .ok ⟨[2, 2586, 2], rfl⟩ := by decide +kernel
  have hr : strToCoordpath hangul 3 "\x00ab" = .ok ⟨[2, 2586, 3], rfl⟩ := by decide +kernel
  refine ⟨_, _, _, hp, hq, hr, ?_, ?_⟩
  · apply h.2.2.1 _ _ _ _ hp hq <;> decide +kernel
  · exact h.2.2.2 "ab" 1 0 _ _ (by decide) hq hr

end Chton.StringKeys
