import Chton.CallRuns
import Chton.Origins

/-!
# Blocks

A block is one region of a fixed length that is viewed as a whole, written and erased. A slice in
memory takes every write and every erase that stays inside the region. A part is more strict: it
takes a write of a byte only once between two erases, and it erases whole sectors. The slice is the
host of programs that are written for a part, so it has to serve every run that a part serves, with
the same views.
-/

namespace Chton.BlockSlices
open OutcomePrograms CallRuns ByteRegions Origins

/-- `ERASED`. -/
def erased : UInt8 := 0xFF

/-- A slice has at most `isize::MAX` bytes, on a target whose `usize` has `w` bits. -/
structure BlockSlice (w : ℕ) where
  region : Bytes
  fits : region.length < 2 ^ (w - 1)
  deriving DecidableEq

abbrev BlockProgram (w : ℕ) (α : Type) := EStateM OriginError (BlockSlice w) α

variable {w : ℕ}

namespace BlockSlice

/-- `region[start..].copy_from_slice(data)` inside of the region. -/
def fill (b : BlockSlice w) (start : ℕ) (data : Bytes)
    (h : start + data.length ≤ b.region.length) : BlockSlice w where
  region := overlay b.region start data
  fits := by
    rw [length_overlay, max_eq_left h]
    exact b.fits

@[simp] theorem fill_region {b : BlockSlice w} {start : ℕ} {data : Bytes}
    (h : start + data.length ≤ b.region.length) :
    (b.fill start data h).region = overlay b.region start data := rfl

def bytes : BlockProgram w Bytes := do
  let b ← get
  pure b.region

/-- The end of the range is a `checked_add`. -/
def write (offset : ℕ) (data : Bytes) : BlockProgram w Unit := do
  let b ← get
  if h : offset + data.length < 2 ^ w ∧ offset + data.length ≤ b.region.length then
    set (b.fill offset data h.2)
  else throw (.outOfBounds offset data.length)

/-- The length of the range is a `saturating_sub`. -/
def erase (start stop : ℕ) : BlockProgram w Unit := do
  let b ← get
  let len := stop - start
  if h : start + len < 2 ^ w ∧ start + len ≤ b.region.length ∧ start ≤ start + len then
    set (b.fill start (List.replicate len erased) (by simpa using h.2.1))
  else throw (.outOfBounds start len)

end BlockSlice

inductive BlockCall
  | bytes
  | write (offset : ℕ) (data : Bytes)
  | erase (start stop : ℕ)
  deriving DecidableEq, Repr

abbrev BlockReply := Except OriginError Bytes

namespace BlockCall

def program : BlockCall → BlockProgram w Bytes
  | bytes => BlockSlice.bytes
  | write offset data => do
    BlockSlice.write offset data
    pure []
  | erase start stop => do
    BlockSlice.erase start stop
    pure []

def perform (c : BlockCall) (b : BlockSlice w) : BlockReply × BlockSlice w := answer c.program b

def start : BlockCall → ℕ
  | bytes => 0
  | write offset _ => offset
  | erase start _ => start

def data : BlockCall → Bytes
  | bytes => []
  | write _ data => data
  | erase start stop => List.replicate (stop - start) erased

abbrev stop (c : BlockCall) : ℕ := c.start + c.data.length

/-- The range of a call holds the byte at `i`. -/
abbrev Covers (c : BlockCall) (i : ℕ) : Prop := c.start ≤ i ∧ i < c.stop

def leaves (i : ℕ) (c : BlockCall) : Option UInt8 :=
  if c.Covers i then some (peek c.data (i - c.start)) else none

def isWrite : BlockCall → Bool
  | write .. => true
  | _ => false

/-- Whether the byte at `i` counts as written after a call. -/
def marks (i : ℕ) (c : BlockCall) : Option Bool :=
  if c.Covers i then some c.isWrite else none

def reply (c : BlockCall) (region : Bytes) : Bytes :=
  match c with
  | bytes => region
  | _ => []

end BlockCall

open BlockCall

theorem overlay_stop {c : BlockCall} {region : Bytes} (h : c.stop ≤ region.length) :
    (overlay region c.start c.data).length = region.length := by
  rw [length_overlay]
  exact max_eq_left h

theorem stop_lt {c : BlockCall} {b : BlockSlice w} (h : c.stop ≤ b.region.length) :
    c.stop < 2 ^ w := by
  have hle : 2 ^ (w - 1) ≤ 2 ^ w := Nat.pow_le_pow_right Nat.two_pos (Nat.sub_le w 1)
  exact Nat.lt_of_lt_of_le (Nat.lt_of_le_of_lt h b.fits) hle

theorem perform_taken {c : BlockCall} {b : BlockSlice w} (h : c.stop ≤ b.region.length) :
    c.perform b = (.ok (c.reply b.region), b.fill c.start c.data h) := by
  have hw := stop_lt h
  cases c with
  | bytes =>
    have hsame : b.fill 0 [] h = b := by
      rcases b with ⟨region, hfits⟩
      simp [BlockSlice.fill, overlay_empty (Nat.zero_le _)]
    exact congrArg (Prod.mk _) hsame.symm
  | write offset data =>
    apply answer_of_ok
    have hwrite : BlockSlice.write offset data b = .ok ⟨⟩ (b.fill offset data h) := by
      change (if _ : _ then _ else _ : BlockProgram w Unit) b = _
      rw [dif_pos ⟨hw, h⟩]
      rfl
    rw [program, bind_apply, hwrite]
    rfl
  | erase start stop =>
    apply answer_of_ok
    have hlen : (List.replicate (stop - start) erased).length = stop - start := by simp
    simp only [BlockCall.stop, BlockCall.start, BlockCall.data, hlen] at h hw
    have herase : BlockSlice.erase start stop b =
        .ok ⟨⟩ (b.fill start (List.replicate (stop - start) erased) (by simpa using h)) := by
      change (if _ : _ then _ else _ : BlockProgram w Unit) b = _
      rw [dif_pos ⟨hw, h, Nat.le_add_right _ _⟩]
      rfl
    rw [program, bind_apply, herase]
    rfl

theorem perform_refused {c : BlockCall} {b : BlockSlice w} (h : ¬c.stop ≤ b.region.length) :
    c.perform b = (.error (.outOfBounds c.start c.data.length), b) := by
  cases c with
  | bytes => exact absurd (Nat.zero_le _) h
  | write offset data =>
    apply answer_of_error
    have hwrite : BlockSlice.write offset data b = .error (.outOfBounds offset data.length) b := by
      change (if _ : _ then _ else _ : BlockProgram w Unit) b = _
      rw [dif_neg fun hfits => h hfits.2]
      rfl
    rw [program, bind_apply, hwrite]
    rfl
  | erase start stop =>
    apply answer_of_error
    have hlen : (List.replicate (stop - start) erased).length = stop - start := by simp
    simp only [BlockCall.stop, BlockCall.start, BlockCall.data, hlen] at h ⊢
    have herase : BlockSlice.erase start stop b = .error (.outOfBounds start (stop - start)) b := by
      change (if _ : _ then _ else _ : BlockProgram w Unit) b = _
      rw [dif_neg fun hfits => h hfits.2.1]
      rfl
    rw [program, bind_apply, herase]

/-- What the last taken call that bears on a byte says about it. -/
def lastOf {α : Type} (f : BlockCall → Option α) (xs : List (BlockCall × BlockReply)) (a : α) : α :=
  (xs.reverse.findSome? fun x => if x.2.isOk then f x.1 else none).getD a

theorem lastOf_taken {α : Type} (f : BlockCall → Option α) (xs : List (BlockCall × BlockReply))
    (a : α) (c : BlockCall) (view : Bytes) :
    lastOf f (xs ++ [(c, .ok view)]) a = (f c).getD (lastOf f xs a) := by
  have hok : (Except.ok view : BlockReply).isOk = true := rfl
  cases hc : f c with
  | none => simp [lastOf, hc, hok]
  | some x => simp [lastOf, hc, hok]

theorem lastOf_refused {α : Type} (f : BlockCall → Option α) (xs : List (BlockCall × BlockReply))
    (a : α) (c : BlockCall) (e : OriginError) :
    lastOf f (xs ++ [(c, .error e)]) a = lastOf f xs a := by
  have hok : (Except.error e : BlockReply).isOk = false := rfl
  simp [lastOf, hok]

theorem peek_leaves (c : BlockCall) (region : Bytes) (i : ℕ) :
    peek (overlay region c.start c.data) i = (leaves i c).getD (peek region i) := by
  rw [peek_overlay, leaves]
  split <;> rfl

/-- The slice after a history `xs` that starts at `b`: each byte is what the last taken call over it
left there, and the calls that reach past the region are refused. -/
structure Hosted (b : BlockSlice w) (xs : List (BlockCall × BlockReply)) (b' : BlockSlice w) :
    Prop where
  length : b'.region.length = b.region.length
  bytes : ∀ i, peek b'.region i = lastOf (leaves i) xs (peek b.region i)
  refuses : ∀ c : BlockCall, c.perform b' = (.error (.outOfBounds c.start c.data.length), b') ↔
    ¬c.stop ≤ b.region.length

theorem refuses_iff {b b' : BlockSlice w} (h : b'.region.length = b.region.length)
    (c : BlockCall) : c.perform b' = (.error (.outOfBounds c.start c.data.length), b') ↔
      ¬c.stop ≤ b.region.length := by
  rw [← h]
  constructor
  · intro hrefused hc
    rw [perform_taken hc] at hrefused
    cases hrefused
  · exact perform_refused

theorem hosted_nil (b : BlockSlice w) : Hosted b [] b where
  length := rfl
  bytes _ := rfl
  refuses := refuses_iff rfl

theorem hosted_step {b b' : BlockSlice w} {xs : List (BlockCall × BlockReply)}
    (h : Hosted b xs b') (c : BlockCall) :
    Hosted b (xs ++ [(c, (c.perform b').1)]) (c.perform b').2 := by
  by_cases hc : c.stop ≤ b'.region.length
  · rw [perform_taken hc]
    have hlength := (overlay_stop hc).trans h.length
    refine ⟨hlength, fun i => ?_, refuses_iff hlength⟩
    rw [lastOf_taken, BlockSlice.fill_region, peek_leaves, h.bytes]
  · rw [perform_refused hc]
    refine ⟨h.length, fun i => ?_, h.refuses⟩
    rw [lastOf_refused, h.bytes]

theorem hosted_run (b : BlockSlice w) (cs : List BlockCall) :
    Hosted b (cs.zip (run perform cs b).1) (run perform cs b).2 := by
  obtain ⟨hreplies, hstate⟩ := replays_zip perform cs b
  rw [← hstate]
  exact hreplies.induct (R := Hosted b) (hosted_nil b) fun _ c _ h => hosted_step h c

/-- A medium that remembers which bytes were written since they were erased. A byte that was not
reads as erased. -/
structure Part where
  sector : ℕ
  region : Bytes
  written : ℕ → Bool
  clean : ∀ i < region.length, written i = false → peek region i = erased

namespace Part

/-- A part takes a byte once, and erases whole sectors. -/
def Allows (sector : ℕ) (written : ℕ → Bool) (c : BlockCall) : Prop :=
  match c with
  | bytes => True
  | write .. => ∀ i < c.stop, c.start ≤ i → written i = false
  | erase start stop => start ≤ stop ∧ sector ∣ start ∧ sector ∣ stop

instance (sector : ℕ) (written : ℕ → Bool) (c : BlockCall) : Decidable (Allows sector written c) := by
  cases c with
  | bytes => exact inferInstanceAs (Decidable True)
  | write offset data =>
    exact inferInstanceAs (Decidable (∀ i < (write offset data).stop, offset ≤ i → written i = false))
  | erase start stop =>
    exact inferInstanceAs (Decidable (start ≤ stop ∧ sector ∣ start ∧ sector ∣ stop))

/-- The calls that a part takes. -/
abbrev Takes (p : Part) (c : BlockCall) : Prop :=
  c.stop ≤ p.region.length ∧ Allows p.sector p.written c

theorem peek_erase {start stop i : ℕ} (h : (erase start stop).Covers i) :
    peek (erase start stop).data (i - start) = erased := by
  have hlt : i - start < stop - start := by
    have hstart : start ≤ i := h.1
    have hstop : i < start + (List.replicate (stop - start) erased).length := h.2
    rw [List.length_replicate] at hstop
    omega
  change peek (List.replicate (stop - start) erased) (i - start) = erased
  simp [peek, hlt]

theorem clean_after (p : Part) {c : BlockCall} (h : c.stop ≤ p.region.length) :
    ∀ i < (overlay p.region c.start c.data).length, (marks i c).getD (p.written i) = false →
      peek (overlay p.region c.start c.data) i = erased := by
  intro i hi hunwritten
  rw [overlay_stop h] at hi
  rw [peek_leaves, leaves]
  rw [marks] at hunwritten
  by_cases hcovers : c.Covers i
  · rw [if_pos hcovers]
    rw [if_pos hcovers] at hunwritten
    cases c with
    | bytes => exact absurd hcovers.2 (Nat.not_lt_zero i)
    | write offset data => cases hunwritten
    | erase start stop => exact peek_erase hcovers
  · rw [if_neg hcovers]
    rw [if_neg hcovers] at hunwritten
    exact p.clean i hi hunwritten

def after (p : Part) (c : BlockCall) (h : c.stop ≤ p.region.length) : Part where
  sector := p.sector
  region := overlay p.region c.start c.data
  written i := (marks i c).getD (p.written i)
  clean := p.clean_after h

/-- A part refuses what it does not take, and stays as it is. -/
def perform (c : BlockCall) (p : Part) : BlockReply × Part :=
  if h : p.Takes c then (.ok (c.reply p.region), p.after c h.1) else (.error .unsupported, p)

theorem perform_takes {p : Part} {c : BlockCall} (h : p.Takes c) :
    p.perform c = (.ok (c.reply p.region), p.after c h.1) := dif_pos h

theorem perform_not_takes {p : Part} {c : BlockCall} (h : ¬p.Takes c) :
    p.perform c = (.error .unsupported, p) := dif_neg h

end Part

def taken (c : BlockCall) (r : BlockReply) : Option BlockCall := if r.isOk then some c else none

/-- A slice with the bytes of a part takes what the part takes, with the same reply. -/
theorem perform_of_part {p : Part} {b : BlockSlice w} (h : p.region = b.region) {c d : BlockCall}
    (hd : taken c (p.perform c).1 = some d) :
    (p.perform c).1 = (d.perform b).1 ∧ (p.perform c).2.region = (d.perform b).2.region := by
  by_cases htakes : p.Takes c
  · rw [Part.perform_takes htakes] at hd ⊢
    cases hd
    have hc : c.stop ≤ b.region.length := h ▸ htakes.1
    rw [perform_taken hc]
    constructor
    · exact congrArg (fun region => Except.ok (c.reply region)) h
    · exact congrArg (fun region => overlay region c.start c.data) h
  · rw [Part.perform_not_takes htakes] at hd
    cases hd

theorem region_of_not_taken {p : Part} {c : BlockCall} (h : taken c (p.perform c).1 = none) :
    (p.perform c).2 = p := by
  by_cases htakes : p.Takes c
  · rw [Part.perform_takes htakes] at h
    cases h
  · rw [Part.perform_not_takes htakes]

structure Remembers (p : Part) (xs : List (BlockCall × BlockReply)) (p' : Part) : Prop where
  sector : p'.sector = p.sector
  length : p'.region.length = p.region.length
  written : ∀ i, p'.written i = lastOf (marks i) xs (p.written i)

theorem remembers_step {p p' : Part} {xs : List (BlockCall × BlockReply)} (h : Remembers p xs p')
    (c : BlockCall) : Remembers p (xs ++ [(c, (p'.perform c).1)]) (p'.perform c).2 := by
  by_cases hc : p'.Takes c
  · rw [Part.perform_takes hc]
    refine ⟨h.sector, (overlay_stop hc.1).trans h.length, fun i => ?_⟩
    rw [lastOf_taken, ← h.written]
    rfl
  · rw [Part.perform_not_takes hc]
    refine ⟨h.sector, h.length, fun i => ?_⟩
    rw [lastOf_refused, h.written]

theorem remembers_run (p : Part) (cs : List BlockCall) :
    Remembers p (cs.zip (run Part.perform cs p).1) (run Part.perform cs p).2 := by
  obtain ⟨hreplies, hstate⟩ := replays_zip Part.perform cs p
  rw [← hstate]
  exact hreplies.induct (R := Remembers p) ⟨rfl, rfl, fun _ => rfl⟩ fun _ c _ h =>
    remembers_step h c

theorem slice_takes_iff {b : BlockSlice w} {c : BlockCall} :
    (c.perform b).1.isOk = true ↔ c.stop ≤ b.region.length := by
  by_cases h : c.stop ≤ b.region.length
  · simp [perform_taken h, h, Except.isOk, Except.toBool]
  · simp [perform_refused h, h, Except.isOk, Except.toBool]

theorem part_takes_iff {p : Part} {c : BlockCall} : (p.perform c).1.isOk = true ↔ p.Takes c := by
  by_cases h : p.Takes c
  · rw [Part.perform_takes h]
    exact ⟨fun _ => h, fun _ => rfl⟩
  · rw [Part.perform_not_takes h]
    exact ⟨Bool.noConfusion, fun hp => absurd hp h⟩

def takenOf (p : Part) (cs : List BlockCall) : List (BlockCall × BlockReply) :=
  kept taken cs (run Part.perform cs p).1

/-- The slice after the calls that the part took. -/
def hostOf (b : BlockSlice w) (p : Part) (cs : List BlockCall) : BlockSlice w :=
  (run perform ((takenOf p cs).map Prod.fst) b).2

/-- Whether the byte at `i` was written since it was last erased. -/
def writtenAfter (p : Part) (cs : List BlockCall) (i : ℕ) : Bool :=
  lastOf (marks i) (cs.zip (run Part.perform cs p).1) (p.written i)

structure Served (b : BlockSlice w) (p : Part) (cs : List BlockCall) : Prop where
  replies : (takenOf p cs).map Prod.snd = (run perform ((takenOf p cs).map Prod.fst) b).1
  region : (run Part.perform cs p).2.region = (hostOf b p cs).region
  takes : ∀ c, ((run Part.perform cs p).2.perform c).1.isOk = true ↔
    (c.perform (hostOf b p cs)).1.isOk = true ∧ Part.Allows p.sector (writtenAfter p cs) c
  clean : ∀ i < (hostOf b p cs).region.length, writtenAfter p cs i = false →
    peek (hostOf b p cs).region i = erased

theorem served_of_region {b : BlockSlice w} {p : Part} (h : p.region = b.region)
    (cs : List BlockCall) : Served b p cs := by
  have hrun : (takenOf p cs).map Prod.snd = (run perform ((takenOf p cs).map Prod.fst) b).1 ∧
      (run Part.perform cs p).2.region = (hostOf b p cs).region := by
    simp only [hostOf, takenOf]
    apply run_simulation_kept (R := fun (p : Part) (b : BlockSlice w) => p.region = b.region)
    · exact fun c _ p b h hc => (congrArg Part.region (region_of_not_taken hc)).trans h
    · exact fun c _ p b d h hd => perform_of_part h hd
    · exact h
  obtain ⟨hreplies, hregion⟩ := hrun
  have hremembers := remembers_run p cs
  have hwritten : (run Part.perform cs p).2.written = writtenAfter p cs :=
    funext hremembers.written
  refine ⟨hreplies, hregion, fun c => ?_, fun i hi hclean => ?_⟩
  · rw [part_takes_iff, slice_takes_iff, Part.Takes, hremembers.sector, hwritten, hregion]
  · rw [← hregion]
    exact (run Part.perform cs p).2.clean i (hregion ▸ hi) ((hremembers.written i).trans hclean)

/-- A slice keeps of every run what the calls inside of it left, and it serves every run on a part
with the replies of the part. -/
theorem blocks_serve_parts (b : BlockSlice w) :
    (∀ cs, Hosted b (cs.zip (run perform cs b).1) (run perform cs b).2) ∧
      ∀ p : Part, p.region = b.region → ∀ cs, Served b p cs :=
  ⟨hosted_run b, fun _ h cs => served_of_region h cs⟩

/-- Two sectors of four bytes that are erased. -/
def erasedPart : Part where
  sector := 4
  region := List.replicate 8 erased
  written _ := false
  clean i hi _ := by
    rw [List.length_replicate] at hi
    rw [peek, List.getD_replicate _ hi]

theorem blocks_serve_parts_erased :
    ∀ cs, Served (w := 64) ⟨List.replicate 8 erased, by decide⟩ erasedPart cs :=
  (blocks_serve_parts ⟨List.replicate 8 erased, by decide⟩).2 erasedPart rfl

end Chton.BlockSlices
