import Chton.PricedPrograms
import Chton.StoreRuns
import Mathlib.Order.Monotone.Defs

/-!
# What a call costs its origin

Every access to an origin has a price that depends on its kind and on the number of bytes it
asks for. The price of a call then depends on the depth of the paths, the size of a record
slot and the length of the value alone: what the store holds, and how much, does not matter,
and neither does what the origin answers.
-/

namespace Chton.CallCosts
open OutcomePrograms CallRuns ByteRegions LittleEndianWords Origins TreeStrategyProgram
open CoordMapProgram StrategyCalls HeaderCalls MapUpdates StoreReopening StoreRuns PricedPrograms

/-- What an access is charged, by its kind and by the bytes it asks for. -/
structure Prices where
  read : ℕ → ℕ
  write : ℕ → ℕ
  flush : ℕ
  read_mono : Monotone read

/-- An origin with a running total. -/
structure Metered (P : Prices) (σ : Type) where
  inner : σ
  spent : ℕ

variable {P : Prices} {σ α : Type}

/-- An access is charged whether it returns or fails. -/
def charged (price : ℕ) (x : EStateM (Stop OriginError) σ α) :
    EStateM (Stop OriginError) (Metered P σ) α := fun o =>
  match x o.inner with
  | .ok a s => .ok a ⟨s, o.spent + price⟩
  | .error e s => .error e ⟨s, o.spent + price⟩

instance [Origin σ] : Origin (Metered P σ) where
  len o := Origin.len o.inner
  read offset n := charged (P.read n) (Origin.read offset n)
  write offset data := charged (P.write data.length) (Origin.write offset data)
  flush := charged P.flush Origin.flush

section
variable (P : Prices) (N slot : ℕ)

/-- A length prefix and a value. -/
def recordPrice : ℕ := P.read lengthBytes + P.read (slot - lengthBytes)

/-- A slot and its bit. -/
def slotPrice : ℕ := P.write slotBytes + (P.read 1 + P.write 1)

def nodePrice : ℕ := P.write nodeSpan + slotPrice P

/-- A slot for each of `k` levels, and a node for each level but the last. -/
def descentPrice (k : ℕ) : ℕ := k * P.read slotBytes + (k - 1) * nodePrice P

/-- What the old value costs, or else a place for a new one. -/
def roomPrice : ℕ := max (recordPrice P slot) (P.read slotBytes + slotPrice P)

def headerPrice : ℕ := P.write headerLen

def price : StoreCall N → ℕ
  | .map (.get _) => N * P.read slotBytes + recordPrice P slot
  | .map (.put _ v) =>
    descentPrice P N + (roomPrice P slot + (P.write lengthBytes + P.write v.val.length))
  | .map (.remove _) =>
    N * P.read slotBytes + (recordPrice P slot + (P.write slotBytes + slotPrice P))
  | .map .clear => P.write nodeSpan + headerPrice P
  | .flush => headerPrice P + P.flush
  | .len => 0
  | .iter => 0

end

def mountMeter (P : Prices) (N slot : ℕ) (σ : Type) : Meter (Mount N (Metered P σ)) ℕ where
  spent m := m.origin.spent
  sound m := m.strategy.recordSlotSize = slot ∧ m.strategy.nodeSize = nodeSpan

variable {N slot : ℕ}

abbrev MountCosts (P : Prices) (slot : ℕ) (x : BindingProgram N (Metered P σ) α) (c : ℕ) : Prop :=
  Costs (mountMeter P N slot σ) x c

theorem charged_spent {price : ℕ} (x : EStateM (Stop OriginError) σ α) (o : Metered P σ) :
    Ensures (charged price x) o (fun _ o' => o'.spent = o.spent + price)
      fun _ o' => o'.spent = o.spent + price := by
  constructor
  · intro a o' hx
    simp only [charged] at hx
    split at hx <;> cases hx
    rfl
  · intro e o' hx
    simp only [charged] at hx
    split at hx <;> cases hx
    rfl

theorem charged_spec {price : ℕ} (x : EStateM (Stop OriginError) σ α)
    (m : Mount N (Metered P σ)) : Ensures (onOrigin (charged price x)) m
      (fun _ m' => m'.strategy = m.strategy ∧ m'.origin.spent = m.origin.spent + price)
      fun _ m' => m'.strategy = m.strategy ∧ m'.origin.spent = m.origin.spent + price := by
  rw [onOrigin, ensures_focus]
  exact (charged_spent x m.origin).mono (fun _ _ h => ⟨rfl, h⟩) fun _ _ h => ⟨rfl, h⟩

theorem charged_costs {price : ℕ} (x : EStateM (Stop OriginError) σ α) :
    MountCosts P slot (onOrigin (charged price x) : BindingProgram N (Metered P σ) α) price := by
  intro m hm
  have hwithin {m' : Mount N (Metered P σ)}
      (h : m'.strategy = m.strategy ∧ m'.origin.spent = m.origin.spent + price) :
      (mountMeter P N slot σ).Within price m m' := by
    refine ⟨?_, h.2.le⟩
    change m'.strategy.recordSlotSize = slot ∧ m'.strategy.nodeSize = nodeSpan
    rw [h.1]
    exact hm
  exact (charged_spec x m).mono (fun _ _ h => ⟨trivial, hwithin h⟩) fun _ _ h => hwithin h

theorem addU64_free {ε τ : Type} {M : Meter τ ℕ} (a b : ℕ) :
    Costs M (addU64 a b : EStateM (Stop ε) τ ℕ) 0 :=
  Yields.ite (fun _ => .pure trivial) fun _ => .throw _

theorem slotPos_free (node : ℕ) (c : Coord) :
    MountCosts P slot (slotPos node c : BindingProgram N (Metered P σ) ℕ) 0 :=
  (addU64_free _ _).bindFree fun _ _ => addU64_free _ _

theorem modify_free {f : Mount N (Metered P σ) → Mount N (Metered P σ)}
    (hf : ∀ m, (f m).strategy.recordSlotSize = m.strategy.recordSlotSize ∧
      (f m).strategy.nodeSize = m.strategy.nodeSize ∧ (f m).origin = m.origin) :
    MountCosts P slot (modify f) 0 := by
  apply Costs.modify
  intro m hm
  obtain ⟨hslot, hnode, horigin⟩ := hf m
  exact ⟨⟨hslot.trans hm.1, hnode.trans hm.2⟩, congrArg Metered.spent horigin⟩

theorem checkedBump_free (size : ℕ) :
    MountCosts P slot (checkedBump size : BindingProgram N (Metered P σ) ℕ) 0 := by
  intro m hm
  rw [checkedBump, ensures_bind, ensures_get]
  apply ensures_ite
  · intro _
    rw [ensures_bind, ensures_set, ensures_pure]
    exact ⟨trivial, .free hm rfl⟩
  · intro _
    rw [ensures_throw]
    exact .refl hm

variable [Origin σ]

theorem writeOrigin_costs (offset : ℕ) (data : Bytes) :
    MountCosts P slot (onOrigin (Origin.write offset data) :
      BindingProgram N (Metered P σ) Unit) (P.write data.length) := charged_costs _

theorem originLen_free : MountCosts P slot (originLen : BindingProgram N (Metered P σ) ℕ) 0 :=
  Yields.get.bindFree fun _ _ => .pure trivial

theorem readSlot_costs (pos : ℕ) :
    MountCosts P slot (readSlot pos : BindingProgram N (Metered P σ) ℕ) (P.read slotBytes) := by
  refine originLen_free.bindFree fun len _ => .ite (fun _ => .pure trivial) fun _ => ?_
  refine (charged_costs _).thenFree fun buf _ => ?_
  exact .ite (fun _ => .throw _) fun _ => .pure trivial

theorem checkChildInBounds_free (child : ℕ) :
    MountCosts P slot (checkChildInBounds child : BindingProgram N (Metered P σ) Unit) 0 := by
  refine .ite (fun _ => ?_) fun _ => .throw _
  exact originLen_free.bindFree fun len _ => .ite (fun _ => .throw _) fun _ => .pure trivial

theorem writeU64_costs (pos value : ℕ) :
    MountCosts P slot (writeU64 pos value : BindingProgram N (Metered P σ) Unit)
      (P.write slotBytes) := by
  have h := @writeOrigin_costs P σ N slot _ pos (encode 8 value)
  rwa [length_encode] at h

theorem writeSlot_costs (node : ℕ) (c : Coord) (value : ℕ) :
    MountCosts P slot (writeSlot node c value : BindingProgram N (Metered P σ) Unit)
      (slotPrice P) := by
  refine (slotPos_free node c).bindFree fun pos _ => (writeU64_costs pos value).bind fun _ _ => ?_
  refine (addU64_free _ _).bindFree fun bytePos _ => (charged_costs _).bind fun buf _ => ?_
  cases buf with
  | nil => exact .throw _
  | cons byte rest => exact charged_costs _

theorem writeZeros_costs (offset n : ℕ) :
    MountCosts P slot (onOrigin (Origin.write offset (List.replicate n 0)) :
      BindingProgram N (Metered P σ) Unit) (P.write n) := by
  have h := @writeOrigin_costs P σ N slot _ offset (List.replicate n 0)
  rwa [List.length_replicate] at h

theorem allocNode_costs :
    MountCosts P slot (allocNode : BindingProgram N (Metered P σ) ℕ) (P.write nodeSpan) := by
  refine Yields.get.bindFree fun m hm => (checkedBump_free _).bindFree fun node _ => ?_
  have hwrite := @writeZeros_costs P σ N slot _ node m.strategy.nodeSize
  refine (hwrite.mono (le_of_eq (congrArg P.write hm.2))).thenFree fun _ _ => ?_
  exact .pure trivial

theorem locateFrom_costs (pathLen node : ℕ) (cs : List Coord) :
    MountCosts P slot (locateFrom pathLen node cs : BindingProgram N (Metered P σ) Slot)
      (cs.length * P.read slotBytes) := by
  induction cs generalizing node with
  | nil => exact .throw _
  | cons c cs ih =>
    have hlen : (c :: cs).length * P.read slotBytes = P.read slotBytes + cs.length * P.read slotBytes := by
      rw [List.length_cons, Nat.succ_mul, Nat.add_comm]
    rw [hlen]
    refine (slotPos_free node c).bindFree fun pos _ => (readSlot_costs pos).bind fun value _ => ?_
    refine .ite (fun _ => .pure trivial) fun _ => .ite (fun _ => .pure trivial) fun _ => ?_
    exact (checkChildInBounds_free value).bindFree fun _ _ => ih value

theorem locate_costs (p : CoordPath N) :
    MountCosts P slot (locate p : BindingProgram N (Metered P σ) Slot) (N * P.read slotBytes) := by
  have h := @locateFrom_costs P σ N slot _ N rootOffset p.coords
  rwa [p.length_coords] at h

theorem descentPrice_succ (k : ℕ) : descentPrice P (k + 2) =
    P.read slotBytes + (nodePrice P + descentPrice P (k + 1)) := by
  have hlast : k + 2 - 1 = k + 1 := rfl
  simp only [descentPrice, hlast, Nat.add_sub_cancel, Nat.add_mul]
  omega

/-- A level that is missing costs a node besides. -/
theorem locateOrCreateFrom_costs (pathLen node : ℕ) (cs : List Coord) :
    MountCosts P slot (locateOrCreateFrom pathLen node cs : BindingProgram N (Metered P σ) Slot)
      (descentPrice P cs.length) := by
  induction cs generalizing node with
  | nil => exact .throw _
  | cons c cs ih =>
    refine (slotPos_free node c).bindFree fun pos _ => ?_
    cases cs with
    | nil =>
      have hprice : descentPrice P [c].length = P.read slotBytes := by simp [descentPrice]
      rw [hprice]
      exact (readSlot_costs pos).thenFree fun value _ => .pure trivial
    | cons c' cs =>
      have hprice := @descentPrice_succ P cs.length
      rw [List.length_cons, List.length_cons, hprice]
      refine (readSlot_costs pos).bind fun value _ => ?_
      rw [if_neg (List.cons_ne_nil c' cs)]
      refine .ite (fun _ => ?_) fun _ => ?_
      · rw [nodePrice, Nat.add_assoc]
        refine allocNode_costs.bind fun child _ => ?_
        exact (writeSlot_costs node c child).bind fun _ _ => ih child
      · refine (checkChildInBounds_free value).bindFree fun _ _ => ?_
        exact (ih value).mono (Nat.le_add_left _ _)

theorem locateOrCreate_costs (p : CoordPath N) :
    MountCosts P slot (locateOrCreate p : BindingProgram N (Metered P σ) Slot)
      (descentPrice P N) := by
  have h := @locateOrCreateFrom_costs P σ N slot _ N rootOffset p.coords
  rwa [p.length_coords] at h

theorem allocRecord_costs :
    MountCosts P slot (allocRecord : BindingProgram N (Metered P σ) ℕ) (P.read slotBytes) := by
  refine Yields.get.bindFree fun m hm => .ite (fun _ => ?_) fun _ => ?_
  · refine originLen_free.bindFree fun len _ => .ite (fun _ => .throw _) fun _ => ?_
    refine (readSlot_costs _).thenFree fun next _ => ?_
    refine Yields.bindFree (modify_free ?_) fun _ _ => .pure trivial
    exact fun _ => ⟨rfl, rfl, rfl⟩
  · exact (checkedBump_free _).mono (Nat.zero_le _)

theorem freeRecord_costs (offset : ℕ) :
    MountCosts P slot (freeRecord offset : BindingProgram N (Metered P σ) Unit)
      (P.write slotBytes) := by
  refine Yields.get.bindFree fun m _ => (writeU64_costs offset _).thenFree fun _ _ => ?_
  exact modify_free fun _ => ⟨rfl, rfl, rfl⟩

theorem writeHeader_costs :
    MountCosts P slot (writeHeader : BindingProgram N (Metered P σ) Unit) (headerPrice P) := by
  refine Yields.get.bindFree fun m _ => ?_
  have h := @writeOrigin_costs P σ N slot _ 0 (headerBytes m.strategy)
  rwa [length_headerBytes] at h

theorem reset_costs : MountCosts P slot (reset : BindingProgram N (Metered P σ) Unit)
    (P.write nodeSpan + headerPrice P) := by
  refine Yields.bindFree (modify_free ?_) fun _ _ => ?_
  · exact fun _ => ⟨rfl, rfl, rfl⟩
  refine Yields.get.bindFree fun m hm => ?_
  have hwrite := @writeZeros_costs P σ N slot _ rootOffset m.strategy.nodeSize
  exact (hwrite.mono (le_of_eq (congrArg P.write hm.2))).bind fun _ _ => writeHeader_costs

def storeMeter (P : Prices) (w N slot : ℕ) (σ : Type) :
    Meter (CoordMapStore w N (Metered P σ)) ℕ where
  spent st := st.mount.origin.spent
  sound st := (mountMeter P N slot σ).sound st.mount

variable {w : ℕ}

abbrev StoreCosts (P : Prices) (slot : ℕ) (x : MapProgram w N (Metered P σ) α) (c : ℕ) : Prop :=
  Costs (storeMeter P w N slot σ) x c

omit [Origin σ] in
theorem onStrategy_costs {x : BindingProgram N (Metered P σ) α} {c : ℕ}
    (hx : MountCosts P slot x c) :
    StoreCosts P slot (onStrategy x : MapProgram w N (Metered P σ) α) c :=
  Yields.focus hx (fun _ ht => ht) (fun _ _ hs _ => hs) (fun _ => rfl) fun _ _ => rfl

omit [Origin σ] in
theorem onMapOrigin_costs {price : ℕ} (x : EStateM (Stop OriginError) σ α) :
    StoreCosts P slot (onMapOrigin (charged price x) : MapProgram w N (Metered P σ) α) price := by
  intro st hst
  rw [onMapOrigin, ensures_focus]
  exact (charged_spent x _).mono (fun _ _ h => ⟨trivial, hst, h.le⟩) fun _ _ h => ⟨hst, h.le⟩

omit [Origin σ] in
theorem modifyStore_free {f : CoordMapStore w N (Metered P σ) → CoordMapStore w N (Metered P σ)}
    (hf : ∀ st, (f st).mount = st.mount) : StoreCosts P slot (modify f) 0 := by
  apply Costs.modify
  intro st hst
  have hmount := hf st
  refine ⟨?_, congrArg (fun m => m.origin.spent) hmount⟩
  change (mountMeter P N slot σ).sound (f st).mount
  rw [hmount]
  exact hst

omit [Origin σ] in
theorem bumpLen_free : StoreCosts P slot (bumpLen : MapProgram w N (Metered P σ) Unit) 0 := by
  intro st hst
  rw [bumpLen, ensures_bind, ensures_get]
  apply ensures_ite
  · intro _
    rw [ensures_set]
    exact ⟨trivial, .free hst rfl⟩
  · intro _
    rw [ensures_throw]
    exact .refl hst

omit [Origin σ] in
theorem vecZeroed_free (len : ℕ) :
    StoreCosts P slot (vecZeroed len : MapProgram w N (Metered P σ) Unit) 0 :=
  Yields.ite (fun _ => .pure trivial) fun _ => .throw _

omit [Origin σ] in
/-- No value is longer than a record slot leaves room for. -/
theorem maxValueLen_free : Yields (storeMeter P w N slot σ) maxValueLen
    (fun n => n ≤ slot - lengthBytes) 0 := by
  refine Yields.get.bindFree fun st hst => .ite (fun _ => .throw _) fun _ => .pure ?_
  have hslot : st.recordSlotSize = slot := hst.1
  rw [hslot, asUsize]
  exact Nat.sub_le_sub_right (Nat.mod_le slot (2 ^ w)) lengthBytes

theorem readRecord_costs (offset : ℕ) :
    StoreCosts P slot (readRecord offset : MapProgram w N (Metered P σ) Bytes)
      (recordPrice P slot) := by
  refine (onMapOrigin_costs _).bind fun header _ => .ite (fun _ => .throw _) fun _ => ?_
  refine maxValueLen_free.bindFree fun maxLen hmax => .ite (fun _ => .throw _) fun hlen => ?_
  have hprice := P.read_mono ((Nat.le_of_not_gt hlen).trans hmax)
  refine (vecZeroed_free _).bindFree fun _ _ => ?_
  refine (addU64_free _ _).bindFree fun payload _ => ?_
  refine ((onMapOrigin_costs _).mono hprice).thenFree fun value _ => ?_
  exact .ite (fun _ => .throw _) fun _ => .pure trivial

theorem getPath_costs (p : CoordPath N) :
    StoreCosts P slot (getPath p : MapProgram w N (Metered P σ) (Option Bytes))
      (N * P.read slotBytes + recordPrice P slot) := by
  refine (onStrategy_costs (locate_costs p)).bind fun found _ => ?_
  refine .ite (fun _ => .pure trivial) fun _ => (readRecord_costs _).thenFree fun v _ => ?_
  exact .pure trivial

theorem writeRecord_costs (record : ℕ) (v : Bytes) :
    StoreCosts P slot (writeRecord record v : MapProgram w N (Metered P σ) Unit)
      (P.write lengthBytes + P.write v.length) := by
  have hlen : (encode 8 v.length).length = lengthBytes := length_encode 8 v.length
  have hprefix : StoreCosts P slot (onMapOrigin (Origin.write record (encode 8 v.length)) :
      MapProgram w N (Metered P σ) Unit) (P.write (encode 8 v.length).length) :=
    onMapOrigin_costs _
  rw [hlen] at hprefix
  refine hprefix.bind fun _ _ => .ite (fun _ => .pure trivial) fun _ => ?_
  exact (addU64_free _ _).bindFree fun payload _ => onMapOrigin_costs _

theorem putPath_costs (p : CoordPath N) (v : Bytes) :
    StoreCosts P slot (putPath p v : MapProgram w N (Metered P σ) (Option Bytes))
      (descentPrice P N + (roomPrice P slot + (P.write lengthBytes + P.write v.length))) := by
  refine maxValueLen_free.bindFree fun maxLen _ => .ite (fun _ => .throw _) fun _ => ?_
  refine (onStrategy_costs (locateOrCreate_costs p)).bind fun found _ => .ite (fun _ => ?_) fun _ => ?_
  · refine ((readRecord_costs _).mono (le_max_left _ _)).bind fun prev _ => ?_
    refine (writeRecord_costs _ v).thenFree fun _ _ => ?_
    exact Yields.bindFree (modifyStore_free fun _ => rfl) fun _ _ => .pure trivial
  · refine Yields.mono ?_ (Nat.add_le_add_right (le_max_right _ _) _)
    rw [Nat.add_assoc]
    refine (onStrategy_costs allocRecord_costs).bind fun record _ => ?_
    refine (onStrategy_costs (writeSlot_costs _ _ record)).bind fun _ _ => ?_
    refine bumpLen_free.bindFree fun _ _ => (writeRecord_costs record v).thenFree fun _ _ => ?_
    exact Yields.bindFree (modifyStore_free fun _ => rfl) fun _ _ => .pure trivial

theorem removePath_costs (p : CoordPath N) :
    StoreCosts P slot (removePath p : MapProgram w N (Metered P σ) (Option Bytes))
      (N * P.read slotBytes + (recordPrice P slot + (P.write slotBytes + slotPrice P))) := by
  refine (onStrategy_costs (locate_costs p)).bind fun found _ => .ite (fun _ => .pure trivial) fun _ => ?_
  refine (readRecord_costs _).bind fun prev _ => ?_
  refine (onStrategy_costs (freeRecord_costs _)).bind fun _ _ => ?_
  refine (onStrategy_costs (writeSlot_costs _ _ 0)).thenFree fun _ _ => ?_
  exact Yields.bindFree (modifyStore_free fun _ => rfl) fun _ _ => .pure trivial

theorem clearChecked_costs : StoreCosts P slot (clearChecked : MapProgram w N (Metered P σ) Unit)
    (P.write nodeSpan + headerPrice P) :=
  (onStrategy_costs reset_costs).thenFree fun _ _ => modifyStore_free fun _ => rfl

theorem flush_costs : StoreCosts P slot (CoordMapProgram.flush : MapProgram w N (Metered P σ) Unit)
    (headerPrice P + P.flush) := by
  refine Yields.get.bindFree fun st _ => ?_
  refine (onStrategy_costs (modify_free ?_)).bindFree fun _ _ => ?_
  · exact fun _ => ⟨rfl, rfl, rfl⟩
  refine (onStrategy_costs writeHeader_costs).bind fun _ _ => ?_
  exact (onMapOrigin_costs _).thenFree fun _ _ => modifyStore_free fun _ => rfl

theorem program_costs {c : StoreCall N} (hc : c ≠ .iter) :
    StoreCosts P slot (c.program : MapProgram 64 N (Metered P σ) (Answer N)) (price P N slot c) := by
  cases c with
  | iter => exact absurd rfl hc
  | len => exact Yields.get.bindFree fun st _ => .pure trivial
  | flush => exact flush_costs.thenFree fun _ _ => .pure trivial
  | map c =>
    cases c with
    | get p => exact (getPath_costs p).thenFree fun _ _ => .pure trivial
    | put p v => exact (putPath_costs p v.val).thenFree fun _ _ => .pure trivial
    | remove p => exact (removePath_costs p).thenFree fun _ _ => .pure trivial
    | clear => exact clearChecked_costs.thenFree fun _ _ => .pure trivial

theorem run_costs {st : CoordMapStore 64 N (Metered P σ)}
    (hst : (storeMeter P 64 N slot σ).sound st) {cs : List (StoreCall N)} (hcs : ∀ c ∈ cs, c ≠ .iter) :
    (storeMeter P 64 N slot σ).Within (cs.map (price P N slot)).sum st
      (run StoreCall.perform cs st).2 := by
  induction cs generalizing st with
  | nil => exact .refl hst
  | cons c cs ih =>
    obtain ⟨hc, hcs⟩ := List.forall_mem_cons.mp hcs
    have hcall : (storeMeter P 64 N slot σ).Within (price P N slot c) st (c.perform st).2 := by
      rcases answer_cases (program_costs hc st hst) with ⟨a, st', hanswer, -, h⟩ | ⟨e, st', hanswer, h⟩
      all_goals
        rw [StoreCall.perform, hanswer]
        exact h
    exact hcall.trans (ih hcall.sound hcs)

theorem loadStrategy_costs {m : Mount N (Metered P σ)} (hm : m.strategy.nodeSize = nodeSpan) :
    Ensures load m (fun _ m' => m'.strategy.nodeSize = nodeSpan ∧
      m'.origin.spent ≤ m.origin.spent + P.read headerLen) fun _ _ => True := by
  have hsame : m.strategy.nodeSize = nodeSpan ∧ m.origin.spent ≤ m.origin.spent + P.read headerLen :=
    ⟨hm, Nat.le_add_right _ _⟩
  rw [load, originLen, ensures_bind, ensures_bind, ensures_get, ensures_pure]
  refine ensures_ite (fun _ => ensures_pure.mpr hsame) fun _ => ?_
  refine (charged_spec _ m).bind ?_ fun _ _ _ => trivial
  intro data m₁ h₁
  have hread : m₁.strategy.nodeSize = nodeSpan ∧
      m₁.origin.spent ≤ m.origin.spent + P.read headerLen := by
    rw [h₁.1]
    exact ⟨hm, h₁.2.le⟩
  refine ensures_ite (fun _ => ensures_pure.mpr hread) fun _ => ?_
  rw [ensures_bind, ensures_get]
  refine ensures_ite (fun _ => ensures_throw.mpr trivial) fun _ => ?_
  refine ensures_ite (fun _ => ensures_throw.mpr trivial) fun _ => ?_
  rw [ensures_bind, ensures_set]
  refine ensures_ite (fun _ => ensures_throw.mpr trivial) fun _ => ?_
  exact ensures_ite (fun _ => ensures_throw.mpr trivial) fun _ => ensures_pure.mpr hread

inductive OpenedOver (o : Metered P σ) (st : CoordMapStore 64 N (Metered P σ)) : Prop
  | new {d : ℕ} (eq : CoordMapStore.new o d = .ok st)
  | load {d : ℕ} (eq : CoordMapStore.load o d = .ok st)

/-- Opening a store reads at most its header. -/
theorem OpenedOver.costs {o : Metered P σ} {st : CoordMapStore 64 N (Metered P σ)}
    (h : OpenedOver o st) : (storeMeter P 64 N st.recordSlotSize σ).sound st ∧
      st.mount.origin.spent ≤ o.spent + P.read headerLen := by
  cases h with
  | @new d eq =>
    rw [CoordMapStore.new, TreeStrategy.new] at eq
    split at eq
    · cases eq
    · cases eq
      exact ⟨⟨rfl, rfl⟩, Nat.le_add_right _ _⟩
  | @load d eq =>
    have hd : 8 ≤ d := by
      by_contra hsmall
      rw [CoordMapStore.load, loadOrNew, TreeStrategy.new, if_pos (Nat.lt_of_not_le hsmall)] at eq
      cases eq
    have hload := @loadStrategy_costs P σ N _ ⟨freshFields N d, o⟩ rfl
    rcases load_cases (w := 64) hd hload with ⟨st', heq, ⟨hnode, hspent⟩, -⟩ | ⟨e, m, heq, -⟩
    · cases eq.symm.trans heq
      exact ⟨⟨rfl, hnode⟩, hspent⟩
    · cases eq.symm.trans heq

/-- The cost of opening a store and of any calls but enumerations: it depends neither on the
image nor on what the origin answers, and not on how much the store holds. -/
theorem calls_have_prices {o : Metered P σ} {st : CoordMapStore 64 N (Metered P σ)}
    (h : OpenedOver o st) {cs : List (StoreCall N)} (hcs : ∀ c ∈ cs, c ≠ .iter) :
    (run StoreCall.perform cs st).2.mount.origin.spent ≤
      o.spent + P.read headerLen + (cs.map (price P N st.recordSlotSize)).sum := by
  obtain ⟨hsound, hopen⟩ := h.costs
  exact (run_costs hsound hcs).spent.trans (Nat.add_le_add_right hopen _)

def accesses : Prices := ⟨fun _ => 1, fun _ => 1, 1, monotone_const⟩

/-- At depth 3, the accesses of opening the image of a flushed store, of two puts, a removal and a
flush. -/
theorem calls_have_prices_accesses : ∃ st : CoordMapStore 64 3 (Metered accesses IdealOrigin),
    CoordMapStore.load ⟨⟨headerBytes (freshFields 3 16)⟩, 0⟩ 8 = .ok st ∧
      ∀ (p q : CoordPath 3) (v : Value),
        (run StoreCall.perform [.map (.put p v), .map (.put q v), .map (.remove p), .flush]
          st).2.mount.origin.spent ≤ 1 + (17 + 17 + 9 + 2) := by
  obtain ⟨st, hst, hslot⟩ : ∃ st : CoordMapStore 64 3 (Metered accesses IdealOrigin),
      CoordMapStore.load ⟨⟨headerBytes (freshFields 3 16)⟩, 0⟩ 8 = .ok st ∧
        st.recordSlotSize = 16 := ⟨_, rfl, rfl⟩
  refine ⟨st, hst, fun p q v => ?_⟩
  have hcs : ∀ c ∈ [StoreCall.map (.put p v), .map (.put q v), .map (.remove p), .flush],
      c ≠ .iter := by simp
  have hspent := calls_have_prices (.load hst) hcs
  rw [hslot] at hspent
  exact hspent

end Chton.CallCosts
