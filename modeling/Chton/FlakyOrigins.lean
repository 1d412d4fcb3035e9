import Chton.Origins

/-!
# Flaky origins

An origin whose calls fail where a plan says so, each without changing a byte. The bytes are
kept as the writes that made them, newest first, so a read looks at no byte that it does not
return. Behind the end of the plan every call succeeds.
-/

namespace Chton.FlakyOrigins
open OutcomePrograms ByteRegions LittleEndianWords Origins

structure FlakyOrigin where
  writes : List (ℕ × Bytes)
  plan : List Bool

namespace FlakyOrigin

def bytesOf (writes : List (ℕ × Bytes)) : Bytes :=
  writes.foldr (fun w b => overlay b w.1 w.2) []

def lengthOf (writes : List (ℕ × Bytes)) : ℕ :=
  writes.foldr (fun w n => max n (w.1 + w.2.length)) 0

/-- The byte of the newest write over it. -/
def byteAt (writes : List (ℕ × Bytes)) (i : ℕ) : UInt8 :=
  writes.foldr (fun w byte => if w.1 ≤ i ∧ i < w.1 + w.2.length then peek w.2 (i - w.1) else byte) 0

/-- Every call takes one entry of the plan. -/
def attempt {α : Type} (x : EStateM (Stop OriginError) FlakyOrigin α) :
    EStateM (Stop OriginError) FlakyOrigin α := do
  let o ← get
  match o.plan with
  | [] => x
  | fails :: plan =>
    set ({ o with plan := plan } : FlakyOrigin)
    if fails then throw (.err (.io 5)) else x

theorem length_bytesOf (writes : List (ℕ × Bytes)) :
    (bytesOf writes).length = lengthOf writes := by
  induction writes with
  | nil => rfl
  | cons w writes ih =>
    rw [bytesOf, List.foldr_cons, length_overlay, lengthOf, List.foldr_cons]
    exact congrArg (fun n => max n (w.1 + w.2.length)) ih

theorem byteAt_eq (writes : List (ℕ × Bytes)) (i : ℕ) :
    byteAt writes i = peek (bytesOf writes) i := by
  induction writes with
  | nil => rfl
  | cons w writes ih =>
    rw [byteAt, List.foldr_cons, bytesOf, List.foldr_cons, peek_overlay]
    split_ifs
    · rfl
    · exact ih

def readBytes (writes : List (ℕ × Bytes)) (offset n : ℕ) : Bytes :=
  (List.range (min n (lengthOf writes - offset))).map fun k => byteAt writes (offset + k)

theorem readBytes_eq (writes : List (ℕ × Bytes)) (offset n : ℕ) :
    readBytes writes offset n = ((bytesOf writes).drop offset).take n := by
  have hlength := length_bytesOf writes
  have hwindow : readBytes writes offset n =
      window (bytesOf writes) offset (min n (lengthOf writes - offset)) := by
    rw [readBytes, window]
    exact List.map_congr_left fun k _ => byteAt_eq writes (offset + k)
  by_cases hend : offset ≤ lengthOf writes
  · have htake : ((bytesOf writes).drop offset).take n =
        ((bytesOf writes).drop offset).take (min n ((bytesOf writes).drop offset).length) :=
      List.take_eq_take_min
    rw [hwindow, window_eq_drop_take (by omega), htake, List.length_drop, hlength]
  · rw [hwindow, List.drop_eq_nil_of_le (by omega), Nat.sub_eq_zero_of_le (by omega), Nat.min_zero,
      List.take_nil]
    rfl

theorem attempt_spec {α : Type} {x : EStateM (Stop OriginError) FlakyOrigin α} {o : FlakyOrigin}
    {Q : α → FlakyOrigin → Prop}
    (h : ∀ plan, Ensures x ⟨o.writes, plan⟩ Q fun _ _ => False) :
    Ensures (attempt x) o Q (Refused fun _ o' => True ∧ bytesOf o'.writes = bytesOf o.writes) := by
  obtain ⟨writes, plan⟩ := o
  rw [attempt, ensures_bind, ensures_get]
  cases plan with
  | nil => exact (h []).mono (fun _ _ hq => hq) fun _ _ hf => hf.elim
  | cons fails plan =>
    change Ensures (set _ >>= _) _ _ _
    rw [ensures_bind, ensures_set]
    apply ensures_ite
    · intro _
      rw [ensures_throw]
      exact ⟨trivial, rfl⟩
    · intro _
      exact (h plan).mono (fun _ _ hq => hq) fun _ _ hf => hf.elim

end FlakyOrigin

open FlakyOrigin

instance : ByteOrigin FlakyOrigin where
  len o := lengthOf o.writes
  read offset n := attempt do
    let o ← get
    pure (readBytes o.writes offset n)
  write offset data := attempt do
    modify fun o => { o with writes := (offset, data) :: o.writes }
  flush := attempt (pure ())
  bytes o := bytesOf o.writes
  mayFail := True
  len_eq o := (length_bytesOf o.writes).symm
  read_spec o offset n := by
    apply attempt_spec
    intro plan
    rw [ensures_bind, ensures_get, ensures_pure]
    exact ⟨readBytes_eq o.writes offset n, rfl⟩
  write_spec o offset data _ _ := by
    apply attempt_spec
    intro plan
    rw [ensures_modify]
    rfl
  flush_spec o := by
    apply attempt_spec
    intro plan
    rw [ensures_pure]

end Chton.FlakyOrigins
