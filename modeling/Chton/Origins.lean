import Chton.OutcomePrograms
import Chton.ByteRegions

/-!
# The byte-level origin surface

`Origin` is the trait every medium implements: a length, positional reads and
writes, and a flush to the medium. A read takes the origin's state along, because
a medium may change while it is read (a file position moves, a fault strikes).

`ByteOrigin` says what the layers above rely on. The origin holds a list of bytes;
a call that succeeds reads or overlays that list, and a call that fails returns an
error and leaves the list alone. Whether calls can fail at all is part of the
instance, so one development covers origins that never fail and origins in which
any call may.
-/

namespace Chton.Origins
open OutcomePrograms ByteRegions

/-- What ends a Rust program other than a returned value. -/
inductive Panic where
  | overflow
  | capacity
  | assertion
  | unwrap
  deriving DecidableEq, Repr

/-- A computation that does not return a value returns an error or panics. -/
inductive Stop (ε : Type) where
  | err (error : ε)
  | panic (cause : Panic)
  deriving DecidableEq, Repr

def Stop.map {ε ε' : Type} (f : ε → ε') : Stop ε → Stop ε'
  | .err e => .err (f e)
  | .panic p => .panic p

/-- A failure postcondition that excludes panics. -/
def Refused {ε σ : Type} (P : ε → σ → Prop) : Stop ε → σ → Prop
  | .err e, s => P e s
  | .panic _, _ => False

theorem Refused.state {ε σ : Type} {P : σ → Prop} {e : Stop ε} {s : σ}
    (h : Refused (fun _ s => P s) e s) : P s := by
  cases e with
  | err e => exact h
  | panic cause => exact h.elim

theorem Refused.imp {ε σ τ : Type} {P : ε → σ → Prop} {P' : ε → τ → Prop} {e : Stop ε} {s : σ}
    {t : τ} (h : Refused P e s) (hP : ∀ e, P e s → P' e t) : Refused P' e t := by
  cases e with
  | err e => exact hP e h
  | panic p => exact h

theorem Refused.mono {ε σ : Type} {P P' : ε → σ → Prop} {e : Stop ε} {s : σ}
    (h : Refused P e s) (hP : ∀ e s, P e s → P' e s) : Refused P' e s :=
  h.imp fun e => hP e s

/-- `u64` addition: a sum that does not fit panics. -/
def addU64 {ε σ : Type} (a b : ℕ) : EStateM (Stop ε) σ ℕ :=
  if a + b < 2 ^ 64 then pure (a + b) else throw (.panic .overflow)

theorem addU64_spec {ε σ : Type} {a b : ℕ} {s : σ} (h : a + b < 2 ^ 64)
    {E : Stop ε → σ → Prop} :
    Ensures (addU64 a b) s (fun r s' => r = a + b ∧ s' = s) E := by
  rw [addU64, if_pos h, ensures_pure]
  exact ⟨rfl, rfl⟩

/-- `Vec::with_capacity(n)` for elements of `size` bytes, on a target whose `usize` has `w` bits: a
request above `isize::MAX` bytes panics. -/
def withCapacity {ε σ : Type} (w size n : ℕ) : EStateM (Stop ε) σ Unit :=
  if n * size < 2 ^ (w - 1) then pure () else throw (.panic .capacity)

theorem withCapacity_eq {ε σ : Type} (size n : ℕ) : (withCapacity 64 size n : EStateM (Stop ε) σ Unit) =
    if n * size < 2 ^ 63 then pure () else throw (.panic .capacity) := rfl

theorem withCapacity_bytes {ε σ : Type} (n : ℕ) : (withCapacity 64 1 n : EStateM (Stop ε) σ Unit) =
    if n < 2 ^ 63 then pure () else throw (.panic .capacity) := by
  rw [withCapacity_eq, Nat.mul_one]

/-- `Io` carries the host's error, kept as an opaque number. -/
inductive OriginError where
  | io (code : ℕ)
  | outOfBounds (offset len : ℕ)
  | unsupported
  deriving DecidableEq, Repr

class Origin (σ : Type) where
  len : σ → ℕ
  /-- The bytes read at `offset` into a buffer of `n` bytes. -/
  read (offset n : ℕ) : EStateM (Stop OriginError) σ Bytes
  write (offset : ℕ) (data : Bytes) : EStateM (Stop OriginError) σ Unit
  flush : EStateM (Stop OriginError) σ Unit

/-- An origin that can be dropped and opened again over the bytes it leaves. -/
class Medium (σ : Type) extends Origin σ where
  bytes : σ → Bytes
  reopen : σ → σ

/-- An origin that behaves as a list of bytes. -/
class ByteOrigin (σ : Type) extends Origin σ where
  bytes : σ → Bytes
  mayFail : Prop
  len_eq (s : σ) : len s = (bytes s).length
  read_spec (s : σ) (offset n : ℕ) :
    Ensures (read offset n) s
      (fun data s' => data = ((bytes s).drop offset).take n ∧ bytes s' = bytes s)
      (Refused fun _ s' => mayFail ∧ bytes s' = bytes s)
  write_spec (s : σ) (offset : ℕ) (data : Bytes) (hdata : data ≠ [])
    (hend : offset + data.length < 2 ^ 64) :
    Ensures (write offset data) s
      (fun _ s' => bytes s' = overlay (bytes s) offset data)
      (Refused fun _ s' => mayFail ∧ bytes s' = bytes s)
  flush_spec (s : σ) :
    Ensures flush s (fun _ s' => bytes s' = bytes s)
      (Refused fun _ s' => mayFail ∧ bytes s' = bytes s)

def NeverFails (σ : Type) [ByteOrigin σ] : Prop := ¬ByteOrigin.mayFail σ

/-- A byte region without a size limit: no call on it fails. -/
structure IdealOrigin where
  data : Bytes
  deriving DecidableEq

instance : ByteOrigin IdealOrigin where
  len s := s.data.length
  read offset n := fun s => .ok ((s.data.drop offset).take n) s
  write offset data := fun s => .ok () ⟨overlay s.data offset data⟩
  flush := pure ()
  bytes := IdealOrigin.data
  mayFail := False
  len_eq _ := rfl
  read_spec _ _ _ := by
    refine ⟨fun h => ?_, fun h => by cases h⟩
    cases h
    exact ⟨rfl, rfl⟩
  write_spec _ _ _ _ _ := by
    refine ⟨fun h => ?_, fun h => by cases h⟩
    cases h
    rfl
  flush_spec _ := ensures_pure.mpr rfl

theorem IdealOrigin.neverFails : NeverFails IdealOrigin := id

end Chton.Origins
