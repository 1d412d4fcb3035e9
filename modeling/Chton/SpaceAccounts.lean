import Chton.AreaNeeds
import Chton.AreaPartitions
import Chton.FiniteMaps
import Chton.RecoverableStores

/-!
# The space that a run takes

A removed record is used again before the area grows, and a node stays until the store is
cleared. The area is therefore known from the calls and their replies alone: one record for
each entry that was there when there were most, and one node for each proper beginning of a
path that was stored.
-/

namespace Chton.SpaceAccounts
open OutcomePrograms CallRuns ByteRegions IntervalTilings Origins TreeStrategyProgram
open CoordMapProgram StoreLayouts StoreLayouts.Layout LayoutImages StrategyCalls
open StoreRepresentations TreeDescents RecordCalls MapCalls LayoutContents StoreRuns FiniteMaps
open AreaNeeds AreaPartitions RecoverableStores

/-- What the replies since the last clear tell about the area. -/
structure Account (N : ℕ) where
  live : Finset (CoordPath N)
  peak : ℕ
  stored : Finset (CoordPath N)
  /-- Besides the stored paths, those that were refused for lack of addresses. -/
  touched : Finset (CoordPath N)

variable {N : ℕ}

def Account.blank : Account N := ⟨∅, 0, ∅, ∅⟩

def Account.store (a : Account N) (p : CoordPath N) : Account N where
  live := insert p a.live
  peak := max a.peak (insert p a.live).card
  stored := insert p a.stored
  touched := insert p a.touched

def Account.after (a : Account N) : Step N × Reply N → Account N
  | (.call (.map (.put p _)), .ok _) => a.store p
  | (.call (.map (.put p _)), .error e) =>
    if overflows (.error e : Reply N) then { a with touched := insert p a.touched } else a
  | (.call (.map (.remove p)), .ok _) => { a with live := a.live.erase p }
  | (.call (.map .clear), .ok _) => .blank
  | _ => a

def accountOf (xs : List (Step N)) (rs : List (Reply N)) : Account N :=
  (xs.zip rs).foldl Account.after .blank

def Beginnings (ps : Finset (CoordPath N)) : Set (List Coord) :=
  {q | q ≠ [] ∧ q.length < N ∧ ∃ p ∈ ps, q <+: p.coords}

structure Accounted (slot : ℕ) (a : Account N) (s : TreeStrategy N) (b : Bytes) : Prop where
  records : Records N b = CoordPath.coords '' (a.live : Set (CoordPath N))
  /-- The free records are those of the peak that no entry uses now. -/
  free : ∃ fs, Partitioned s b fs ∧ a.live.card + fs.length = a.peak
  nodes : Beginnings a.stored ⊆ Nodes N b
  touched : Nodes N b ⊆ Beginnings a.touched
  bump : s.bump = rootEnd + (Nodes N b).ncard * nodeSpan + a.peak * slot

variable {L G A : Layout} {p : CoordPath N} {v : Bytes} {q : List Coord} {a : Account N}

theorem beginning_ne (hq : q.length < N) (p : CoordPath N) : q ≠ p.coords := by
  intro heq
  rw [heq, p.length_coords] at hq
  exact Nat.lt_irrefl N hq

theorem place_inner {r : ℕ} (hq : q.length < N) : (A.place p.coords r v).ptr q = A.ptr q := by
  simp [beginning_ne hq]

theorem settle_inner (hq : q.length < N) : (G.settle p v).2.ptr q = G.ptr q := by
  by_cases hp : G.ptr p.coords = 0
  · cases htake : G.takeRecord with
    | none => rw [settle_full hp htake]
    | some x =>
      rw [settle_insert hp htake, place_inner hq]
      rcases takeRecord_cases htake with ⟨fs, -, hA⟩ | ⟨-, -, -, hA⟩ <;> rw [hA]
  · rw [settle_overwrite hp]
    rfl

/-- Above the records a put does what its descent does, if it comes to that. -/
theorem put_inner (hv : ¬ v.length > L.slot - lengthBytes) (hq : q.length < N) :
    (L.put p v).2.ptr q = (L.descend [] p.coords).1.ptr q := by
  cases hd : L.descend [] p.coords with
  | mk G flag =>
    cases flag with
    | false => rw [put_full hv hd]
    | true => rw [put_settle hv hd, settle_inner hq]

theorem remove_inner (hq : q.length < N) : (L.remove p).2.ptr q = L.ptr q := by
  rw [Layout.remove]
  split
  · rfl
  · simp [beginning_ne hq]

structure Books (a : Account N) (L : Layout) : Prop where
  live : ∀ p, p ∈ a.live ↔ L.contents p ≠ none
  records : a.live.card + L.free.length = a.peak
  stored : ∀ p ∈ a.stored, ∀ q, q.length < N → q <+: p.coords → L.ptr q ≠ 0
  touched : ∀ q, q ≠ [] → q.length < N → L.ptr q ≠ 0 → ∃ p ∈ a.touched, q <+: p.coords

theorem books_empty (hN : 0 < N) (slot : ℕ) : Books (.blank : Account N) (empty slot) where
  live p := by simp [Account.blank, contents_empty hN]
  records := rfl
  stored p hp := absurd hp (Finset.notMem_empty p)
  touched q hq _ hptr := absurd (if_neg hq) hptr

/-- The live paths after a change of the map at one path. -/
theorem Books.update (h : Books a L) {L' : Layout} {x : Option Bytes} (p : CoordPath N)
    (hcontents : (L'.contents : PathMap N) = Function.update L.contents p x) (q : CoordPath N) :
    (if x = none then q ∈ a.live.erase p else q ∈ insert p a.live) ↔ L'.contents q ≠ none := by
  rw [hcontents]
  by_cases hq : q = p
  · subst hq
    by_cases hx : x = none <;> simp [hx]
  · by_cases hx : x = none <;> simp [hx, hq, h.live]

theorem Books.put_nodes (h : Books a L) (hL : L.Valid N) (hv : ¬ v.length > L.slot - lengthBytes)
    (hq : q.length < N) :
    (L.ptr q ≠ 0 → (L.put p v).2.ptr q ≠ 0) ∧
      (q ≠ [] → (L.put p v).2.ptr q ≠ 0 → ∃ p' ∈ insert p a.touched, q <+: p'.coords) := by
  obtain ⟨hdesc, -⟩ := descend_path hL p
  rw [put_inner hv hq]
  constructor
  · intro hptr
    rw [hdesc.grows q hptr]
    exact hptr
  · intro hne hptr
    rcases descend_linked hptr with hold | ⟨hnew, -⟩
    · obtain ⟨p', hp', hbegins⟩ := h.touched q hne hq hold
      exact ⟨p', Finset.mem_insert_of_mem hp', hbegins⟩
    · exact ⟨p, Finset.mem_insert_self p _, hnew⟩

theorem Books.stored_put (h : Books a L) (hL : L.Valid N) (hs : Stored L p v)
    (hL' : (L.put p v).2.Valid N) : Books (a.store p) (L.put p v).2 := by
  constructor
  · intro q
    simpa [Account.store] using h.update p hs.contents q
  · have hrecords := h.records
    rw [put_free hL hs]
    by_cases hp : L.contents p = none
    · have hmem : p ∉ a.live := fun hlive => (h.live p).mp hlive hp
      cases hfree : L.free with
      | nil => simp [hp, hmem, hfree, Account.store] at hrecords ⊢; omega
      | cons r fs => simp [hp, hmem, hfree, Account.store] at hrecords ⊢; omega
    · have hmem : p ∈ a.live := (h.live p).mpr hp
      simp [hp, hmem, Account.store]
      omega
  · intro p' hp' q hq hbegins
    rcases Finset.mem_insert.mp hp' with rfl | hp'
    · have hlinked : (L.put p' v).2.ptr p'.coords ≠ 0 := by
        have hcontents := congrFun hs.contents p'
        rw [Function.update_self] at hcontents
        intro habs
        exact nomatch (contents_absent habs).symm.trans hcontents
      exact linked_of_prefix hL'.toWired hlinked hbegins
    · exact (h.put_nodes hL hs.small hq).1 (h.stored p' hp' q hq hbegins)
  · intro q hne hq hptr
    exact (h.put_nodes hL hs.small hq).2 hne hptr

theorem Books.refused_put (h : Books a L) (hL : L.Valid N) (hv : ¬ v.length > L.slot - lengthBytes)
    (ho : Overflowed L p v) :
    Books { a with touched := insert p a.touched } (L.put p v).2 := by
  constructor
  · intro q
    rw [contents_kept ho.kept]
    exact h.live q
  · rw [free_of_error hL ho.reply]
    exact h.records
  · intro p' hp' q hq hbegins
    exact (h.put_nodes hL hv hq).1 (h.stored p' hp' q hq hbegins)
  · intro q hne hq hptr
    exact (h.put_nodes hL hv hq).2 hne hptr

theorem Books.put (h : Books a L) (hL : L.Valid N) (p : CoordPath N) (v : Value)
    (hL' : (L.put p v.val).2.Valid N) :
    Books (a.after (.call (.map (.put p v)), ((MapCall.put p v).onLayout L).1))
      (L.put p v.val).2 := by
  rw [MapCall.onLayout]
  by_cases hv : v.val.length > L.slot - lengthBytes
  · rw [put_tooLarge hv]
    exact h
  · rcases put_cases hL p v.val with htoo | hs | ho
    · exact absurd htoo hv
    · rw [hs.reply]
      exact h.stored_put hL hs hL'
    · rw [ho.reply]
      exact h.refused_put hL hv ho

theorem Books.remove (h : Books a L) (p : CoordPath N) :
    Books (a.after (.call (.map (.remove p)), ((MapCall.remove p).onLayout L).1))
      (L.remove p).2 := by
  obtain ⟨hreply, hcontents, -, -⟩ := remove_contents L p
  rw [MapCall.onLayout, hreply]
  change Books { a with live := a.live.erase p } (L.remove p).2
  constructor
  · intro q
    simpa using h.update p hcontents q
  · have hrecords := h.records
    by_cases hp : L.ptr p.coords = 0
    · have hmem : p ∉ a.live := fun hlive => (h.live p).mp hlive (contents_absent hp)
      simpa [Layout.remove, hp, hmem] using hrecords
    · have hmem : p ∈ a.live := (h.live p).mpr fun hnone => hp (contents_eq_none.mp hnone)
      have hpos := Finset.card_pos.mpr ⟨p, hmem⟩
      simp [Layout.remove, hp, Finset.card_erase_of_mem hmem]
      omega
  · intro p' hp' q hq hbegins
    rw [remove_inner hq]
    exact h.stored p' hp' q hq hbegins
  · intro q hne hq hptr
    rw [remove_inner hq] at hptr
    exact h.touched q hne hq hptr

def Keeps (slot : ℕ) {σ : Type} [ByteOrigin σ] (st : CoordMapStore 64 N σ) (a : Account N) : Prop :=
  ∃ L, Refines st L ∧ L.slot = slot ∧ Books a L

variable {σ : Type} [ByteOrigin σ] {slot : ℕ} {st : CoordMapStore 64 N σ}

theorem keeps_step (hfail : NeverFails σ) (hN : 0 < N) (hN' : N ≤ maxStoreDepth) (x : Step N)
    (h : Keeps slot st a) : Keeps slot (x.perform st).2 (a.after (x, (x.perform st).1)) := by
  obtain ⟨L, hL, rfl, hbooks⟩ := h
  obtain ⟨hreply, hnext⟩ := x.perform_eq hfail hN hN' hL
  have hvalid := hL.holds.mount.valid
  rw [hreply]
  refine ⟨_, hnext, slot_onLayout hvalid x, ?_⟩
  cases x with
  | reopen d => exact hbooks
  | call c =>
    cases c with
    | iter => exact hbooks
    | len => exact hbooks
    | flush => exact hbooks
    | map c =>
      cases c with
      | get p => exact hbooks
      | put p v => exact hbooks.put hvalid p v hnext.holds.mount.valid
      | remove p => exact hbooks.remove p
      | clear => exact books_empty hN L.slot

theorem accounted_of_keeps (hN : 0 < N) (h : Keeps slot st a) :
    Accounted slot a st.mount.strategy (image st.mount) := by
  obtain ⟨L, hL, rfl, hbooks⟩ := h
  have hvalid := hL.holds.mount.valid
  have hreach {q : List Coord} (hq : q.length ≤ N) : reach (image st.mount) q = L.ptr q :=
    reach_eq hvalid hL.holds.mount.stored hq
  have hpart := partitioned_of_refines hL
  have hrecords : Records N (image st.mount) =
      CoordPath.coords '' (a.live : Set (CoordPath N)) := by
    ext q
    constructor
    · intro hq
      obtain ⟨-, hlen, hptr⟩ := hq
      rw [hreach hlen.le] at hptr
      refine ⟨⟨q, hlen⟩, (hbooks.live _).mpr ?_, rfl⟩
      exact fun hnone => hptr (contents_eq_none.mp hnone)
    · intro hq
      obtain ⟨p, hp, rfl⟩ := hq
      refine ⟨coords_ne_nil hN p, p.length_coords, ?_⟩
      rw [hreach p.length_coords.le]
      exact fun habs => (hbooks.live p).mp hp (contents_absent habs)
  have hcard : (Records N (image st.mount)).ncard = a.live.card := by
    rw [hrecords, Set.ncard_image_of_injective _ fun _ _ h => CoordPath.ext h, Set.ncard_coe_finset]
  refine ⟨hrecords, ⟨L.free, hpart, hbooks.records⟩, ?_, ?_, ?_⟩
  · intro q hq
    obtain ⟨hne, hlen, p, hp, hbegins⟩ := hq
    refine ⟨hne, hlen, ?_⟩
    rw [hreach hlen.le]
    exact hbooks.stored p hp q hlen hbegins
  · intro q hq
    obtain ⟨hne, hlen, hptr⟩ := hq
    rw [hreach hlen.le] at hptr
    exact ⟨hne, hlen, hbooks.touched q hne hlen hptr⟩
  · have hbump := hpart.bump
    rw [hcard, hbooks.records, hL.holds.mount.fields.nodeSize, hL.holds.mount.fields.slot] at hbump
    exact hbump

/-- Only a refusal for lack of addresses makes a difference between stored and touched. -/
theorem touched_eq_stored {xs : List (Step N)} {rs : List (Reply N)}
    (h : ∀ r ∈ rs, overflows r = false) :
    (accountOf xs rs).touched = (accountOf xs rs).stored := by
  have hstep (a : Account N) (x : Step N) (r : Reply N) (hr : overflows r = false)
      (ha : a.touched = a.stored) : (a.after (x, r)).touched = (a.after (x, r)).stored := by
    unfold Account.after
    split <;> simp_all [Account.store, Account.blank]
  have hfold (xs : List (Step N)) (a : Account N) (ha : a.touched = a.stored) :
      ((xs.zip rs).foldl Account.after a).touched = ((xs.zip rs).foldl Account.after a).stored := by
    induction rs generalizing xs a with
    | nil => simpa using ha
    | cons r rs ih =>
      cases xs with
      | nil => exact ha
      | cons x xs =>
        apply ih (fun r' hr' => h r' (List.mem_cons_of_mem r hr'))
        exact hstep a x r (h r List.mem_cons_self) ha
  exact hfold xs .blank rfl

/-- The calls and their replies determine the area that a run takes. -/
theorem runs_are_accounted (hfail : NeverFails σ) (hN : 1 ≤ N) (hN' : N ≤ maxStoreDepth) {o : σ}
    (ho : ByteOrigin.bytes o = []) (d : SlotSize) :
    ∃ st : CoordMapStore 64 N σ, CoordMapStore.new o d.val = .ok st ∧ ∀ xs : List (Step N),
      Accounted d.val (accountOf xs (run Step.perform xs st).1)
          (run Step.perform xs st).2.mount.strategy (image (run Step.perform xs st).2.mount) ∧
        ((∀ r ∈ (run Step.perform xs st).1, overflows r = false) →
          Nodes N (image (run Step.perform xs st).2.mount) =
            Beginnings (accountOf xs (run Step.perform xs st).1).stored) := by
  obtain ⟨st, hnew, hst, -⟩ := refines_new ho hN d
  refine ⟨st, hnew, ?_⟩
  intro xs
  have hkeeps : Keeps d.val (run Step.perform xs st).2
      (accountOf xs (run Step.perform xs st).1) :=
    run_history (fun x _ _ h => keeps_step hfail hN hN' x h)
      ⟨_, hst, rfl, books_empty hN d.val⟩
  have haccounted := accounted_of_keeps hN hkeeps
  refine ⟨haccounted, ?_⟩
  intro hroom
  apply Set.Subset.antisymm
  · rw [← touched_eq_stored hroom]
    exact haccounted.touched
  · exact haccounted.nodes

theorem runs_are_accounted_ideal : ∃ st : CoordMapStore 64 3 IdealOrigin,
    CoordMapStore.new ⟨[]⟩ 16 = .ok st ∧ ∀ xs : List (Step 3),
      Accounted 16 (accountOf xs (run Step.perform xs st).1)
          (run Step.perform xs st).2.mount.strategy (image (run Step.perform xs st).2.mount) ∧
        ((∀ r ∈ (run Step.perform xs st).1, overflows r = false) →
          Nodes 3 (image (run Step.perform xs st).2.mount) =
            Beginnings (accountOf xs (run Step.perform xs st).1).stored) :=
  runs_are_accounted IdealOrigin.neverFails (by decide) (by decide) rfl ⟨16, by decide⟩

end Chton.SpaceAccounts
