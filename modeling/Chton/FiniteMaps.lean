import Chton.StoreSpans

/-!
# The store as a finite map

A store answers every sequence of calls as a finite map from paths to byte strings does.
The one exception is a `put_path` whose allocation would leave the `u64` range: it is
refused with an error that names the bump pointer, and the map stays as it was. That happens
only when the paths put since the last `clear_checked` need more than `2 ^ 64` bytes.
-/

namespace Chton.FiniteMaps
open OutcomePrograms CallRuns ByteRegions Origins TreeStrategyProgram CoordMapProgram
open StoreLayouts StoreLayouts.Layout TreeDescents MapCalls LayoutContents AreaNeeds StoreRuns
open MapServices StoreSpans

variable {N : ℕ} {σ : Type} {L : Layout}

def MapCall.onMap (limit : ℕ) : MapCall N → PathMap N → Reply N × PathMap N
  | .get p, f => (.ok (.value (f p)), f)
  | .put p v, f =>
    if v.val.length > limit then (.error (.err (.valueTooLarge v.val.length limit)), f)
    else (.ok (.value (f p)), Function.update f p (some v.val))
  | .remove p, f => (.ok (.value (f p)), Function.update f p none)
  | .clear, _ => (.ok .done, fun _ => none)

def MapCall.path : MapCall N → Option (CoordPath N)
  | .get p => some p
  | .put p _ => some p
  | .remove p => some p
  | .clear => none

/-- The error of `checked_add` on the bump pointer. -/
def overflowAt (bump : ℕ) : Reply N := .error (.err (.binding (.origin (.outOfBounds bump (2 ^ 64 - 1)))))

def overflows : Reply N → Bool
  | .error (.err (.binding (.origin (.outOfBounds _ _)))) => true
  | _ => false

/-- Calls that were refused for lack of addresses are not calls on the map. -/
def served (c : MapCall N) (r : Reply N) : Option (MapCall N) := if overflows r then none else some c

structure Serves (c : MapCall N) (L : Layout) : Prop where
  reply : (c.onLayout L).1 = (MapCall.onMap (L.slot - lengthBytes) c L.contents).1
  contents : ((c.onLayout L).2.contents : PathMap N) =
    (MapCall.onMap (L.slot - lengthBytes) c L.contents).2
  slot : (c.onLayout L).2.slot = L.slot
  fits : overflows (c.onLayout L).1 = false

/-- A call that met the end of the addresses. -/
structure TurnedAway (c : MapCall N) (L : Layout) : Prop where
  reply : (c.onLayout L).1 = overflowAt (c.onLayout L).2.bump
  full : 2 ^ 64 ≤ (c.onLayout L).2.bump + max nodeSpan L.slot
  put : ∃ p v, c = .put p v ∧ v.val.length ≤ L.slot - lengthBytes
  contents : ((c.onLayout L).2.contents : PathMap N) = L.contents
  slot : (c.onLayout L).2.slot = L.slot

theorem put_serves (h : L.Valid N) (p : CoordPath N) (v : Value) :
    Serves (.put p v) L ∨ TurnedAway (.put p v) L := by
  by_cases hv : v.val.length > L.slot - lengthBytes
  · left
    refine ⟨?_, ?_, ?_, ?_⟩ <;> simp only [MapCall.onLayout, MapCall.onMap, put_tooLarge hv, if_pos hv]
    · rfl
    · rfl
  · rcases put_cases h p v.val with htoo | hs | ho
    · exact absurd htoo hv
    · left
      refine ⟨?_, ?_, hs.slot, ?_⟩
      · simp only [MapCall.onLayout, MapCall.onMap, if_neg hs.small, hs.reply]
        rfl
      · simp only [MapCall.onLayout, MapCall.onMap, if_neg hs.small, hs.contents]
      · rw [MapCall.onLayout, hs.reply]
        rfl
    · right
      refine ⟨?_, ?_, ⟨p, v, rfl, Nat.le_of_not_gt hv⟩, contents_kept ho.kept, ho.kept.slot⟩
      · rw [MapCall.onLayout, ho.reply]
        rfl
      · have hfull := ho.exhausted
        rw [Exhausted, ho.kept.slot] at hfull
        exact hfull

/-- Every call on a valid layout is a call on its map, or is turned away. -/
theorem onLayout_serves (hN : 0 < N) (h : L.Valid N) (c : MapCall N) :
    Serves c L ∨ TurnedAway c L := by
  cases c with
  | get p => exact .inl ⟨rfl, rfl, rfl, rfl⟩
  | put p v => exact put_serves h p v
  | remove p =>
    obtain ⟨hreply, hcontents, hslot, -⟩ := remove_contents L p
    refine .inl ⟨?_, hcontents, hslot, ?_⟩ <;> rw [MapCall.onLayout, hreply] <;> rfl
  | clear => exact .inl ⟨rfl, contents_empty hN L.slot, rfl, rfl⟩

variable [ByteOrigin σ]

/-- The store holds the entries of the map, in slots of `slot` bytes. -/
def Stands (slot : ℕ) (st : CoordMapStore 64 N σ) (f : PathMap N) : Prop :=
  ∃ L, Holds st L ∧ L.slot = slot ∧ L.contents = f

/-- A `put_path` that met the end of the addresses: its error names the bump pointer of the
store that it leaves. -/
structure Refused (slot : ℕ) (c : MapCall N) (x : Reply N × CoordMapStore 64 N σ) : Prop where
  reply : x.1 = overflowAt x.2.mount.strategy.bump
  full : 2 ^ 64 ≤ x.2.mount.strategy.bump + max nodeSpan slot
  put : ∃ p v, c = .put p v ∧ v.val.length ≤ slot - lengthBytes

variable {slot : ℕ} {st : CoordMapStore 64 N σ} {f : PathMap N} {cs : List (MapCall N)}

/-- A call is a call on the map of the layout, or is refused for lack of addresses. -/
theorem serves_or_refused (hfail : NeverFails σ) (hN : 0 < N) (h : Holds st L) (c : MapCall N) :
    (c.perform st).1 = (c.onLayout L).1 ∧ Holds (c.perform st).2 (c.onLayout L).2 ∧
      (Serves c L ∨ TurnedAway c L ∧ Refused L.slot c (c.perform st)) := by
  obtain ⟨hreply, hL'⟩ := c.perform_eq hfail hN h
  refine ⟨hreply, hL'.holds, (onLayout_serves hN h.mount.valid c).imp_right fun ht => ⟨ht, ?_⟩⟩
  have hbump := hL'.holds.mount.fields.bump
  refine ⟨?_, ?_, ht.put⟩
  · rw [hreply, ht.reply, hbump]
  · rw [hbump]
    exact ht.full

theorem perform_cases (hfail : NeverFails σ) (hN : 0 < N) (h : Stands slot st f) (c : MapCall N) :
    (overflows (c.perform st).1 = false ∧
        (c.perform st).1 = (MapCall.onMap (slot - lengthBytes) c f).1 ∧
        Stands slot (c.perform st).2 (MapCall.onMap (slot - lengthBytes) c f).2) ∨
      Refused slot c (c.perform st) ∧ Stands slot (c.perform st).2 f := by
  obtain ⟨L, hL, rfl, rfl⟩ := h
  obtain ⟨hreply, hL', hs | ⟨ht, hrefused⟩⟩ := serves_or_refused hfail hN hL c
  · left
    rw [hreply]
    exact ⟨hs.fits, hs.reply, _, hL', hs.slot, hs.contents⟩
  · exact .inr ⟨hrefused, _, hL', ht.slot, ht.contents⟩

/-- The calls that are served are answered as the map answers them. -/
theorem run_serves (hfail : NeverFails σ) (hN : 0 < N) (h : Stands slot st f)
    (cs : List (MapCall N)) :
    (kept served cs (run MapCall.perform cs st).1).map Prod.snd =
        (run (MapCall.onMap (slot - lengthBytes))
          ((kept served cs (run MapCall.perform cs st).1).map Prod.fst) f).1 ∧
      Stands slot (run MapCall.perform cs st).2 (run (MapCall.onMap (slot - lengthBytes))
          ((kept served cs (run MapCall.perform cs st).1).map Prod.fst) f).2 := by
  apply run_simulation_kept
  · intro c _ st f h hnone
    rcases perform_cases hfail hN h c with ⟨hfits, -⟩ | ⟨-, hst⟩
    · rw [served, hfits] at hnone
      cases hnone
    · exact hst
  · intro c _ st f c' h hsome
    rcases perform_cases hfail hN h c with ⟨hfits, hreply, hst⟩ | ⟨hrefused, -⟩
    · rw [served, hfits] at hsome
      cases hsome
      exact ⟨hreply, hst⟩
    · rw [served, hrefused.reply] at hsome
      cases hsome
  · exact h

theorem kept_served {cs : List (MapCall N)} {rs : List (Reply N)} (hlen : rs.length = cs.length)
    (h : ∀ r ∈ rs, overflows r = false) : kept served cs rs = cs.zip rs := by
  induction cs generalizing rs with
  | nil => rfl
  | cons c cs ih =>
    cases rs with
    | nil => cases hlen
    | cons r rs =>
      have hr := h r List.mem_cons_self
      have hrec := ih (Nat.succ.inj hlen) fun r' hr' => h r' (List.mem_cons_of_mem r hr')
      rw [kept] at hrec ⊢
      simp [served, hr] at hrec ⊢
      exact hrec

theorem onMap_apart {c : MapCall N} {p q : CoordPath N} {f : PathMap N} (limit : ℕ)
    (hp : MapCall.path c = some p) (hq : q ≠ p) : (MapCall.onMap limit c f).2 q = f q := by
  cases c with
  | get p' => rfl
  | put p' v =>
    cases hp
    rw [MapCall.onMap]
    split
    · rfl
    · exact Function.update_of_ne hq _ _
  | remove p' =>
    cases hp
    exact Function.update_of_ne hq _ _
  | clear => cases hp

/-- What the replies to the calls `cs` say on a store `st` that stands for the map `f`. -/
structure MapRun (slot : ℕ) (f : PathMap N) (st : CoordMapStore 64 N σ) (cs : List (MapCall N)) :
    Prop where
  /-- The calls that are not refused for lack of addresses get the replies of the map. -/
  served : (kept served cs (run MapCall.perform cs st).1).map Prod.snd =
    (run (MapCall.onMap (slot - lengthBytes))
      ((kept served cs (run MapCall.perform cs st).1).map Prod.fst) f).1
  /-- When no call is refused, all replies are those of the map. -/
  complete : (∀ r ∈ (run MapCall.perform cs st).1, overflows r = false) →
    (run MapCall.perform cs st).1 = (run (MapCall.onMap (slot - lengthBytes)) cs f).1
  /-- A further call is refused only for an allocation that would pass the end of `u64`. -/
  refused : ∀ c, overflows (c.perform (run MapCall.perform cs st).2).1 = true →
    Refused slot c (c.perform (run MapCall.perform cs st).2)
  /-- A further call on one path, refused or not, changes no other path. -/
  apart : ∀ c p q, MapCall.path c = some p → q ≠ p →
    ((MapCall.get q).perform (c.perform (run MapCall.perform cs st).2).2).1 =
      ((MapCall.get q).perform (run MapCall.perform cs st).2).1

theorem stands_get (hfail : NeverFails σ) (hN : 0 < N) (h : Stands slot st f) (q : CoordPath N) :
    ((MapCall.get q).perform st).1 = .ok (.value (f q)) := by
  obtain ⟨L, hL, -, rfl⟩ := h
  exact ((MapCall.get q).perform_eq hfail hN hL).1

theorem mapRun_of_stands (hfail : NeverFails σ) (hN : 0 < N) (h : Stands slot st f)
    (cs : List (MapCall N)) : MapRun slot f st cs := by
  obtain ⟨hserved, hfinal⟩ := run_serves hfail hN h cs
  refine ⟨hserved, ?_, ?_, ?_⟩
  · intro hall
    have hlen : (run MapCall.perform cs st).1.length = cs.length := length_replies
    rw [kept_served hlen hall, List.map_snd_zip hlen.le, List.map_fst_zip hlen.ge] at hserved
    exact hserved
  · intro c hc
    rcases perform_cases hfail hN hfinal c with ⟨hfits, -⟩ | ⟨hrefused, -⟩
    · exact absurd (hfits.symm.trans hc) (by decide)
    · exact hrefused
  · intro c p q hp hq
    rw [stands_get hfail hN hfinal]
    rcases perform_cases hfail hN hfinal c with ⟨-, -, hst'⟩ | ⟨-, hst'⟩
    · rw [stands_get hfail hN hst', onMap_apart _ hp hq]
    · rw [stands_get hfail hN hst']

/-- The room that the calls `cs` leave on a store `st` that starts empty. -/
structure Roomy (slot : ℕ) (st : CoordMapStore 64 N σ) (cs : List (MapCall N)) : Prop where
  /-- A further put is refused only if it and the paths put since the last clear need more
  than there is. -/
  refused : ∀ p v, overflows ((MapCall.put p v).perform (run MapCall.perform cs st).2).1 = true →
    2 ^ 64 ≤ areaNeed slot (takenBy cs ++ [p])
  /-- As long as there is room for the paths put since the last clear, nothing is refused. -/
  complete : (∀ pre, pre <+: cs → areaNeed slot (takenBy pre) < 2 ^ 64) →
    (run MapCall.perform cs st).1 = (run (MapCall.onMap (slot - lengthBytes)) cs fun _ => none).1

theorem run_spans (hfail : NeverFails σ) (hN : 0 < N)
    (h : Spans slot ([] : List (CoordPath N)) st) (cs : List (MapCall N)) :
    Spans slot (takenBy cs) (run MapCall.perform cs st).2 := by
  induction cs using List.reverseRecOn with
  | nil => exact h
  | append_singleton cs c ih =>
    rw [run_append, takenBy_concat]
    exact spans_perform hfail hN ih (.map c)

theorem need_of_refused (hfail : NeverFails σ) (hN : 0 < N) {ps : List (CoordPath N)}
    (h : Spans slot ps st) {p : CoordPath N} {v : Value} (hfit : v.val.length ≤ slot - lengthBytes)
    (hover : overflows ((MapCall.put p v).perform st).1 = true) :
    2 ^ 64 ≤ areaNeed slot (ps ++ [p]) := by
  rw [MapCall.perform, MapCall.program, answer_then] at hover
  rcases answer_cases (putPath_room hfail hN h p v.property) with ⟨a, st', hx, -⟩ |
    ⟨e, st', hx, -, hroom⟩
  · rw [hx] at hover
    cases hover
  · exact (hroom hfit).2

theorem roomy_of_spans (hfail : NeverFails σ) (hN : 0 < N)
    (hspans : Spans slot ([] : List (CoordPath N)) st)
    (hruns : ∀ cs : List (MapCall N), MapRun slot (fun _ => none) st cs) (cs : List (MapCall N)) :
    Roomy slot st cs := by
  have hrefused (cs : List (MapCall N)) (p : CoordPath N) (v : Value)
      (hover : overflows ((MapCall.put p v).perform (run MapCall.perform cs st).2).1 = true) :
      2 ^ 64 ≤ areaNeed slot (takenBy cs ++ [p]) := by
    obtain ⟨p', v', hput, hfit⟩ := ((hruns cs).refused _ hover).put
    cases hput
    exact need_of_refused hfail hN (run_spans hfail hN hspans cs) hfit hover
  refine ⟨hrefused cs, fun hroom => (hruns cs).complete ?_⟩
  induction cs using List.reverseRecOn with
  | nil => exact fun r hr => absurd hr List.not_mem_nil
  | append_singleton cs c ih =>
    intro r hr
    rw [run_append, List.mem_append] at hr
    rcases hr with hr | hr
    · exact ih (fun pre hpre => hroom pre (hpre.trans (List.prefix_append cs [c]))) r hr
    · rw [run_cons, run_nil, List.mem_singleton] at hr
      rw [hr, ← Bool.not_eq_true]
      intro hover
      obtain ⟨p, v, rfl, -⟩ := ((hruns cs).refused c hover).put
      have hneed := hrefused cs p v hover
      have hlt := hroom _ (List.prefix_refl _)
      rw [takenBy_concat] at hlt
      exact absurd hlt (Nat.not_lt_of_ge hneed)

/-- A store that starts empty over an origin that never fails is a finite map. -/
theorem new_store_is_map (hfail : NeverFails σ) (hN : 0 < N) {o : σ}
    (ho : ByteOrigin.bytes o = []) (d : SlotSize) :
    ∃ st : CoordMapStore 64 N σ, CoordMapStore.new o d.val = .ok st ∧
      ∀ cs : List (MapCall N), MapRun d.val (fun _ => none) st cs ∧ Roomy d.val st cs := by
  obtain ⟨st, hnew, hst, -⟩ := refines_new ho hN d
  have hruns := mapRun_of_stands hfail hN ⟨_, hst.holds, rfl, contents_empty hN d.val⟩
  have hspans : Spans d.val ([] : List (CoordPath N)) st :=
    ⟨_, hst, rfl, within_empty hN d.property.1 d.property.2⟩
  exact ⟨st, hnew, fun cs => ⟨hruns cs, roomy_of_spans hfail hN hspans hruns cs⟩⟩

/-- The smallest slots hold empty values only. -/
theorem new_store_is_map_ideal :
    ∃ st : CoordMapStore 64 1 IdealOrigin, CoordMapStore.new ⟨[]⟩ 8 = .ok st ∧
      ∀ cs : List (MapCall 1), MapRun 8 (fun _ => none) st cs ∧ Roomy 8 st cs :=
  new_store_is_map IdealOrigin.neverFails Nat.one_pos rfl ⟨8, by decide⟩

end Chton.FiniteMaps
