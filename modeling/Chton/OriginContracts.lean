import Chton.MediumAgreement

/-!
# One contract for three origins

Reads and writes on an empty memory, an empty file and an empty mapped file, writes of no
bytes included. The contract is that of a byte region: a write overlays it, and grows it with
zeros up to the end of the write. The memory and the mapped file grow so under every write. A
write of no bytes changes nothing in a file, but the cached length of the file origin moves up
to its offset. So the three agree, also after they are opened again, exactly as long as
every write of no bytes stays within the region.
-/

namespace Chton.OriginContracts
open OutcomePrograms CallRuns ByteRegions Origins CoordMapProgram MemoryOrigins MediumOrigins
open MediumAgreement

inductive OriginCall
  | read (offset n : ℕ)
  | write (offset : ℕ) (data : Bytes)
  deriving DecidableEq

variable {σ τ : Type}

/-- What a call returns, and the length that the origin reports after it. -/
abbrev OriginReply := Except (Stop OriginError) Bytes × ℕ

namespace OriginCall

def stop : OriginCall → ℕ
  | read offset n => offset + n
  | write offset data => offset + data.length

def program [Origin σ] : OriginCall → EStateM (Stop OriginError) σ Bytes
  | read offset n => Origin.read offset n
  | write offset data => do
    Origin.write offset data
    pure []

def perform [Origin σ] (c : OriginCall) (o : σ) : OriginReply × σ :=
  (((answer c.program o).1, Origin.len (answer c.program o).2), (answer c.program o).2)

def onBytes : OriginCall → Bytes → OriginReply × Bytes
  | read offset n, b => ((.ok ((b.drop offset).take n), b.length), b)
  | write offset data, b => ((.ok [], (overlay b offset data).length), overlay b offset data)

/-- A write of no bytes stays within the region. -/
def Backed : OriginCall → Bytes → Prop
  | read .., _ => True
  | write offset data, b => data = [] → offset ≤ b.length

end OriginCall

open OriginCall

/-- An empty write at `offset` leaves the medium over the grown region. -/
def Extends [Medium τ] (held : Bytes → τ) (offset : ℕ) (b : Bytes) : Prop :=
  Origin.write offset [] (held b) = .ok ⟨⟩ (held (overlay b offset []))

theorem extends_memory {offset : ℕ} (h : offset < 2 ^ 63) (b : Bytes) :
    Extends (MemoryOrigin.mk (w := 64)) offset b := by
  have hfits : offset + ([] : Bytes).length < 2 ^ 64 := by
    simp only [List.length_nil]
    omega
  obtain ⟨a, o, hx, ho⟩ :=
    (memoryWrite_spec (E := fun _ _ => False) ⟨b⟩ hfits (.inr h)).exists_ok
  rw [Extends, hx, ho]

theorem extends_mapped {offset : ℕ} (h : offset < 2 ^ 63) (b : Bytes) :
    Extends MappedFileOrigin.openFile offset b := by
  have hfits : offset + ([] : Bytes).length < 2 ^ 64 := by
    simp only [List.length_nil]
    omega
  obtain ⟨a, o, hx, ho⟩ :=
    (mappedWrite_spec (b := b) (E := fun _ _ => False) hfits).exists_ok
  rw [Extends, hx, ho]

theorem extends_file {offset : ℕ} {b : Bytes} (h : offset < 2 ^ 63) (hb : offset ≤ b.length) :
    Extends FileOrigin.openFile offset b := by
  have hend : offset + ([] : Bytes).length < 2 ^ 63 := h
  rw [Extends, fileWrite_eq hend, overlay_empty hb]
  change EStateM.Result.ok _ (FileOrigin.mk b (max b.length offset)) = _
  rw [max_eq_left hb]
  rfl

variable [Medium τ] {held : Bytes → τ}

/-- A call on a medium that holds a region does to it what the contract says. -/
theorem perform_held (h : Faithful held) {c : OriginCall} (hc : c.stop < 2 ^ 63) {b : Bytes}
    (hb : b.length < 2 ^ 63) (hextends : ∀ offset, c = .write offset [] → Extends held offset b) :
    c.perform (held b) = ((c.onBytes b).1, held (c.onBytes b).2) := by
  cases c with
  | read offset n =>
    have hread : (OriginCall.read offset n).program (held b) =
        .ok ((b.drop offset).take n) (held b) := h.read b offset n hb hc
    rw [perform, answer_of_ok hread, h.len]
    rfl
  | write offset data =>
    have hwrite : Origin.write offset data (held b) = .ok ⟨⟩ (held (overlay b offset data)) := by
      by_cases hdata : data = []
      · subst hdata
        exact hextends offset rfl
      · exact h.write b offset data hb hdata hc
    have hprogram : (OriginCall.write offset data).program (held b) =
        .ok [] (held (overlay b offset data)) := by
      change (Origin.write offset data >>= _) _ = _
      rw [bind_apply, hwrite]
      rfl
    rw [perform, answer_of_ok hprogram, h.len]
    rfl

theorem onBytes_length {c : OriginCall} (hc : c.stop < 2 ^ 63) {b : Bytes}
    (hb : b.length < 2 ^ 63) : (c.onBytes b).2.length < 2 ^ 63 := by
  cases c with
  | read offset n => exact hb
  | write offset data =>
    change (overlay b offset data).length < 2 ^ 63
    rw [length_overlay]
    exact max_lt hb hc

variable {cs : List OriginCall}

/-- A medium whose empty writes of a run all extend it keeps the contract in the run. -/
theorem run_held (h : Faithful held) (hcs : ∀ c ∈ cs, c.stop < 2 ^ 63) {b : Bytes}
    (hb : b.length < 2 ^ 63)
    (hg : Guarded (fun c b => ∀ offset, c = .write offset [] → Extends held offset b) onBytes cs
      b) :
    run perform cs (held b) = ((run onBytes cs b).1, held (run onBytes cs b).2) := by
  induction cs generalizing b with
  | nil => rfl
  | cons c cs ih =>
    obtain ⟨hextends, hg⟩ := hg
    have hc := hcs c List.mem_cons_self
    have hrest := ih (fun d hd => hcs d (List.mem_cons_of_mem c hd)) (onBytes_length hc hb) hg
    simp [perform_held h hc hb hextends, hrest]

/-- A medium that every empty write extends keeps the contract in every run. -/
theorem run_extending (h : Faithful held) (hcs : ∀ c ∈ cs, c.stop < 2 ^ 63)
    (hextends : ∀ {offset}, offset < 2 ^ 63 → ∀ b, Extends held offset b) :
    run perform cs (held []) = ((run onBytes cs []).1, held (run onBytes cs []).2) := by
  apply run_held h hcs (b := []) (Nat.two_pow_pos 63)
  apply guarded_of_forall
  intro c hc b offset hempty
  subst hempty
  exact hextends (hcs _ hc) b

theorem run_memory (hcs : ∀ c ∈ cs, c.stop < 2 ^ 63) :
    run perform cs (⟨[]⟩ : MemoryOrigin 64) =
      ((run onBytes cs []).1, ⟨(run onBytes cs []).2⟩) :=
  run_extending faithful_memory hcs extends_memory

theorem run_mapped (hcs : ∀ c ∈ cs, c.stop < 2 ^ 63) :
    run perform cs (MappedFileOrigin.openFile []) =
      ((run onBytes cs []).1, MappedFileOrigin.openFile (run onBytes cs []).2) :=
  run_extending faithful_mapped hcs extends_mapped

theorem run_file (hcs : ∀ c ∈ cs, c.stop < 2 ^ 63) (hg : Guarded Backed onBytes cs []) :
    run perform cs (FileOrigin.openFile []) =
      ((run onBytes cs []).1, FileOrigin.openFile (run onBytes cs []).2) := by
  apply run_held faithful_file hcs (b := []) (Nat.two_pow_pos 63)
  apply hg.mono
  intro c hc b hbacked offset hempty
  subst hempty
  exact extends_file (hcs _ hc) (hbacked rfl)

/-- Flushed, dropped and opened again, the origin reports the length that it had. -/
def Reopens (o : τ) : Prop :=
  ∃ o', Origin.flush o = .ok ⟨⟩ o' ∧ Origin.len (Medium.reopen o') = Origin.len o'

theorem reopens_held (h : Faithful held) (b : Bytes) : Reopens (held b) := by
  refine ⟨held b, h.flush b, ?_⟩
  rw [h.reopen]

/-- After these calls on an empty medium: the memory has answered as the contract says, the
other two as the memory, and the two files report their lengths when they are opened again. -/
structure OneContract (cs : List OriginCall) : Prop where
  memory : (run perform cs (⟨[]⟩ : MemoryOrigin 64)).1 = (run onBytes cs []).1
  file : (run perform cs (FileOrigin.openFile [])).1 =
    (run perform cs (⟨[]⟩ : MemoryOrigin 64)).1
  mapped : (run perform cs (MappedFileOrigin.openFile [])).1 =
    (run perform cs (⟨[]⟩ : MemoryOrigin 64)).1
  fileReopens : Reopens (run perform cs (FileOrigin.openFile [])).2
  mappedReopens : Reopens (run perform cs (MappedFileOrigin.openFile [])).2

theorem oneContract_of_guarded (hcs : ∀ c ∈ cs, c.stop < 2 ^ 63)
    (hg : Guarded Backed onBytes cs []) : OneContract cs := by
  have hmemory := run_memory hcs
  have hmapped := run_mapped hcs
  have hfile := run_file hcs hg
  constructor
  · rw [hmemory]
  · rw [hfile, hmemory]
  · rw [hmapped, hmemory]
  · rw [hfile]
    exact reopens_held faithful_file _
  · rw [hmapped]
    exact reopens_held faithful_mapped _

/-- A file origin that reopens with its length has no empty write beyond the end behind it. -/
theorem backed_of_reopens {c : OriginCall} (hc : c.stop < 2 ^ 63) {b : Bytes}
    (h : Reopens (c.perform (FileOrigin.openFile b)).2) : c.Backed b := by
  cases c with
  | read offset n => trivial
  | write offset data =>
    intro hdata
    subst hdata
    have hend : offset + ([] : Bytes).length < 2 ^ 63 := hc
    have hprogram : (OriginCall.write offset []).program (FileOrigin.openFile b) =
        .ok [] ⟨b, max b.length offset⟩ := by
      change (Origin.write offset [] >>= _) _ = _
      rw [bind_apply, fileWrite_eq hend]
      rfl
    rw [perform, answer_of_ok hprogram] at h
    obtain ⟨o, hflush, hlen⟩ := h
    cases hflush
    have hlen : b.length = max b.length offset := hlen
    rw [hlen]
    exact le_max_right ..

/-- The three origins obey one contract at every moment of a run exactly if no write of no
bytes in it lies beyond the end of the region. -/
theorem one_contract_iff (hcs : ∀ c ∈ cs, c.stop < 2 ^ 63) :
    (∀ ds, ds <+: cs → OneContract ds) ↔ Guarded Backed onBytes cs [] := by
  constructor
  · intro h
    induction cs using List.reverseRecOn with
    | nil => trivial
    | append_singleton cs c ih =>
      have hcs' : ∀ d ∈ cs, d.stop < 2 ^ 63 := fun d hd => hcs d (List.mem_append_left _ hd)
      have hg := ih hcs' fun ds hds => h ds (hds.trans (List.prefix_append ..))
      have hreopens := (h _ List.prefix_rfl).fileReopens
      rw [run_append, run_file hcs' hg] at hreopens
      apply guarded_append.mpr
      constructor
      · exact hg
      · exact ⟨backed_of_reopens (hcs c List.mem_concat_self) hreopens, trivial⟩
  · intro hg ds hds
    obtain ⟨rest, rfl⟩ := hds
    apply oneContract_of_guarded
    · exact fun c hc => hcs c (List.mem_append_left _ hc)
    · exact (guarded_append.mp hg).1

theorem one_contract_gap : OneContract [.write 3 [1, 2], .write 2 [], .read 0 9] := by
  have hcs : ∀ c ∈ [OriginCall.write 3 [1, 2], .write 2 [], .read 0 9], c.stop < 2 ^ 63 := by
    decide
  apply (one_contract_iff hcs).mpr ?_ _ List.prefix_rfl
  constructor
  · intro hdata
    cases hdata
  · exact ⟨fun _ => by decide, trivial, trivial⟩

/-- After an empty write at 5 the file origin reports 5 bytes like the others, reads none of
them, and is empty when it is opened again. -/
theorem empty_write_beyond_end :
    (∀ c ∈ [OriginCall.write 5 [], .read 0 5], c.stop < 2 ^ 63) ∧
      (run perform [.write 5 [], .read 0 5] (FileOrigin.openFile [])).1 =
        [(.ok [], 5), (.ok [], 5)] ∧
      (run perform [.write 5 [], .read 0 5] (⟨[]⟩ : MemoryOrigin 64)).1 =
        [(.ok [], 5), (.ok [0, 0, 0, 0, 0], 5)] ∧
      ¬Reopens (run perform [.write 5 [], .read 0 5] (FileOrigin.openFile [])).2 ∧
      ¬OneContract [.write 5 [], .read 0 5] := by
  have hreopens : ¬Reopens (run perform [.write 5 [], .read 0 5] (FileOrigin.openFile [])).2 := by
    intro h
    obtain ⟨o, hflush, hlen⟩ := h
    cases hflush
    cases hlen
  exact ⟨by decide, rfl, rfl, hreopens, fun h => hreopens h.fileReopens⟩

end Chton.OriginContracts
