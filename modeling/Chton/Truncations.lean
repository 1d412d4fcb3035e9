import Chton.ImageReads
import Chton.PathlessStores

/-!
# Truncated origins

A store is flushed and its origin cut off somewhere. `load` and `get_path` then read what is
left. A slot of the root node behind the cut reads as absent; everything else that the cut
takes away is found missing by a check, because inner nodes are only entered whole and a
record is only returned whole.
-/

namespace Chton.Truncations
open OutcomePrograms CallRuns ByteRegions LittleEndianWords Origins TreeStrategyProgram
open CoordMapProgram StoreLayouts StoreLayouts.Layout LayoutImages StrategyCalls
open StoreRepresentations TreeDescents RecordCalls HeaderCalls MapCalls LayoutContents
open MapUpdates StoreReopening StoreRuns PathlessStores ImageReads

variable {N t : ℕ} {σ τ : Type} [ByteOrigin σ] [ByteOrigin τ] {m : Mount N τ} {L : Layout}
  {b v : Bytes} {pre rest : List Coord} {c : Coord} {r pos child : ℕ}

theorem erred_of_faulted {m' : Mount N τ} {e : Stop BindingError} (h : Faulted m e m') :
    Erred e m' :=
  h.mono fun _ _ _ => trivial

theorem erred_of_faultedStore {st st' : CoordMapStore 64 N τ} {e : Stop MapError}
    (h : FaultedStore st e st') : Erred e st' :=
  h.mono fun _ _ _ => trivial

theorem peek_take {i : ℕ} (h : i < t) : peek (b.take t) i = peek b i := by
  rw [peek, peek, List.getD_eq_getElem?_getD, List.getD_eq_getElem?_getD,
    List.getElem?_take_of_lt h]

theorem wordAt_take (h : pos + 8 ≤ t) : wordAt (b.take t) pos = wordAt b pos :=
  wordAt_congr fun _ _ h₂ => peek_take (h₂.trans_le h)

/-- A slot that the cut goes through is an error; behind the cut it is absent. -/
theorem readSlot_cut (hm : image m = b.take t) :
    Ensures (readSlot pos) m
      (fun v m' => (pos < t ∧ v = wordAt b pos ∨ t ≤ pos ∧ v = 0) ∧ Same m m') Erred := by
  have hlen : (image m).length = min t b.length := by rw [hm, List.length_take]
  by_cases hwhole : pos + 8 ≤ (image m).length
  · apply (readSlot_spec m (.inl hwhole)).mono
    · intro v m' hv
      rw [hm, wordAt_take (by omega)] at hv
      exact ⟨.inl ⟨by omega, hv.1⟩, hv.2⟩
    · exact fun _ _ hf => erred_of_faulted hf
  by_cases habsent : (image m).length ≤ pos
  · apply (readSlot_spec m (.inr habsent)).mono
    · intro v m' hv
      rw [wordAt_of_length_le habsent] at hv
      by_cases ht : t ≤ pos
      · exact ⟨.inr ⟨ht, hv.1⟩, hv.2⟩
      · rw [wordAt_of_length_le (by omega : b.length ≤ pos)]
        exact ⟨.inl ⟨Nat.lt_of_not_le ht, hv.1⟩, hv.2⟩
    · exact fun _ _ hf => erred_of_faulted hf
  · apply (originLen_spec m).andThen
    intro len m' hm'
    obtain ⟨rfl, rfl⟩ := hm'
    rw [if_neg (by omega)]
    apply (readOrigin_spec m' pos slotBytes).bind
    · intro buf m₁ hbuf
      have hshort : buf.length < slotBytes := by
        have : slotBytes = 8 := rfl
        rw [hbuf.1, List.length_take, List.length_drop]
        omega
      rw [if_pos hshort, ensures_throw]
      exact trivial
    · exact fun _ _ hf => erred_of_faulted hf

/-- A node is only entered if it is there in full. -/
theorem checkChildInBounds_erred (m : Mount N τ) :
    Ensures (checkChildInBounds child) m
      (fun _ m' => m' = m ∧ child + nodeSpan ≤ (image m).length) Erred := by
  rw [checkChildInBounds]
  apply ensures_ite
  · intro _
    apply (originLen_spec m).andThen
    intro len m' hm'
    obtain ⟨rfl, rfl⟩ := hm'
    apply ensures_ite
    · exact fun _ => ensures_throw.mpr trivial
    · exact fun hle => ensures_pure.mpr ⟨rfl, Nat.le_of_not_gt hle⟩
  · exact fun _ => ensures_throw.mpr trivial

/-- From a node that is there in full the descent finds what it found before. -/
theorem locateFrom_cut (pathLen : ℕ) (hstored : Image N b L) (hvalid : L.Valid N) (hN : 0 < N)
    (hm : image m = b.take t) (hpre : L.ptr pre ≠ 0)
    (hnode : L.ptr pre + nodeSpan ≤ (image m).length)
    (hlen : pre.length + rest.length = N) (hrest : rest ≠ []) :
    Ensures (locateFrom pathLen (L.ptr pre) rest) m
      (fun s m' => s = L.resolve pre rest ∧ Same m m') Erred := by
  induction rest generalizing pre m with
  | nil => exact absurd rfl hrest
  | cons c rest ih =>
    rw [List.length_cons] at hlen
    have hlt : pre.length < N := by omega
    have hle := slotAddr_le (L.ptr pre) c
    rw [locateFrom, resolve]
    apply (slotPos_spec m (node_lt hvalid hN hpre hlt)).andThen
    intro pos m' hpos
    obtain ⟨rfl, rfl⟩ := hpos
    apply (readSlot_spec m' (.inl (by omega))).bind
    · intro value m₁ hvalue
      obtain ⟨hvalue, hsame⟩ := hvalue
      have htake : (b.take t).length ≤ t := by
        rw [List.length_take]
        exact Nat.min_le_left t b.length
      rw [hm, wordAt_take (by rw [hm] at hnode; omega), hstored.slots pre c hlt hpre] at hvalue
      subst hvalue
      apply ensures_ite
      · intro hr
        rw [if_pos hr, ensures_pure]
        exact ⟨rfl, hsame⟩
      · intro hr
        rw [if_neg hr]
        apply ensures_ite
        · intro habsent
          rw [if_pos habsent, ensures_pure]
          exact ⟨rfl, hsame⟩
        · intro hlink
          rw [if_neg hlink]
          apply (checkChildInBounds_erred m₁).andThen
          intro _ m₂ hchild
          obtain ⟨rfl, hchild⟩ := hchild
          have hlen' : (pre ++ [c]).length + rest.length = N := by
            rw [List.length_append, List.length_singleton]
            omega
          apply (ih (hsame.image.trans hm) hlink hchild hlen' hr).mono
          · exact fun s m₃ hs => ⟨hs.1, hsame.trans hs.2⟩
          · exact fun _ _ hf => hf
    · exact fun _ _ hf => erred_of_faulted hf

/-- What the lookup of a path finds: nothing, if the cut is not behind its root slot. -/
def Located (L : Layout) (t : ℕ) (p : CoordPath N) (offset : ℕ) : Prop :=
  ∃ c rest, p.coords = c :: rest ∧
    (slotAddr rootOffset c < t ∧ offset = L.ptr p.coords ∨ t ≤ slotAddr rootOffset c ∧ offset = 0)

theorem locate_cut (hstored : Image N b L) (hvalid : L.Valid N) (hN : 0 < N)
    (hm : image m = b.take t) (p : CoordPath N) :
    Ensures (locate p) m (fun s m' => Located L t p s.recordOffset ∧ Same m m') Erred := by
  have hroot := root_ne_zero hvalid.toWired
  have hptr := hvalid.root
  obtain ⟨c, rest, hp⟩ := List.exists_cons_of_ne_nil (coords_ne_nil hN p)
  have hlen := p.length_coords
  rw [hp, List.length_cons] at hlen
  have hresolve := recordOffset_resolve hvalid hN p
  rw [hp, resolve] at hresolve
  rw [locate, hp, locateFrom, ← hptr]
  apply (slotPos_spec m (node_lt hvalid hN hroot hN)).andThen
  intro pos m' hpos
  obtain ⟨rfl, rfl⟩ := hpos
  apply (readSlot_cut hm).andThen
  intro value m₁ hvalue
  obtain ⟨hor, hsame⟩ := hvalue
  rw [hptr] at hor
  cases hor with
  | inr hcut =>
    have hlocated : Located L t p 0 := ⟨c, rest, hp, .inr ⟨hcut.1, rfl⟩⟩
    rw [hcut.2]
    apply ensures_ite
    · exact fun _ => ensures_pure.mpr ⟨hlocated, hsame⟩
    · intro _
      rw [if_pos rfl, ensures_pure]
      exact ⟨hlocated, hsame⟩
  | inl hword =>
    obtain ⟨hbefore, hword⟩ := hword
    have hlocated : ∀ {offset : ℕ}, offset = L.ptr p.coords → Located L t p offset :=
      fun h => ⟨c, rest, hp, .inl ⟨hbefore, h⟩⟩
    rw [← hptr, hstored.slots [] c hN hroot] at hword
    subst hword
    apply ensures_ite
    · intro hr
      rw [if_pos hr, ← hp] at hresolve
      rw [ensures_pure]
      exact ⟨hlocated hresolve, hsame⟩
    · intro hr
      rw [if_neg hr, ← hp] at hresolve
      apply ensures_ite
      · intro habsent
        rw [if_pos habsent] at hresolve
        rw [ensures_pure]
        exact ⟨hlocated hresolve, hsame⟩
      · intro hlink
        rw [if_neg hlink] at hresolve
        apply (checkChildInBounds_erred m₁).andThen
        intro _ m₂ hchild
        obtain ⟨rfl, hchild⟩ := hchild
        have hlen' : ([] ++ [c] : List Coord).length + rest.length = N := by
          rw [List.nil_append, List.length_singleton]
          omega
        apply (locateFrom_cut N hstored hvalid hN (hsame.image.trans hm) hlink hchild hlen'
          hr).mono
        · intro s m₃ hs
          rw [hs.1]
          exact ⟨hlocated hresolve, hsame.trans hs.2⟩
        · exact fun _ _ hf => hf

/-- A record is returned whole or not at all. -/
theorem readRecord_cut {st : CoordMapStore 64 N τ} {slot : ℕ}
    (hslot : st.mount.strategy.recordSlotSize = slot) (h64 : slot < 2 ^ 64)
    (hm : image st.mount = b.take t) (hrec : RecordAt b r v) (hfit : v.length + 8 ≤ slot)
    (hsized : v.length < 2 ^ 63) (hend : r + 8 < 2 ^ 64) :
    Ensures (readRecord r) st (fun a _ => a = v) Erred := by
  obtain ⟨hroom, hword, hval⟩ := hrec
  have hlength : lengthBytes = 8 := rfl
  have hlen : (image st.mount).length = min t b.length := by rw [hm, List.length_take]
  rw [readRecord]
  apply (mapRead_spec st r lengthBytes).bind
  · intro header st₁ hheader
    obtain ⟨rfl, hst₁⟩ := hheader
    apply ensures_ite
    · exact fun _ => ensures_throw.mpr trivial
    · intro hwhole
      rw [List.length_take, List.length_drop] at hwhole
      have hv : asUsize 64 (decode (((image st.mount).drop r).take lengthBytes)) = v.length := by
        rw [decode_drop_take (by omega), hm, wordAt_take (by omega), hword, asUsize,
          Nat.mod_eq_of_lt (by omega)]
      rw [hv]
      apply (maxValueLen_spec (hst₁.mount.strategy ▸ hslot) (by omega) h64).andThen
      intro maxLen st₂ hmax
      obtain ⟨rfl, rfl⟩ := hmax
      rw [if_neg (by omega), vecZeroed, if_pos hsized, ensures_bind, ensures_pure]
      apply (addU64_spec hend).andThen
      intro payload st₃ hpayload
      obtain ⟨rfl, rfl⟩ := hpayload
      apply (mapRead_spec st₃ (r + lengthBytes) v.length).bind
      · intro value st₄ hvalue
        obtain ⟨rfl, -⟩ := hvalue
        apply ensures_ite
        · exact fun _ => ensures_throw.mpr trivial
        · intro hfull
          rw [List.length_take, List.length_drop, hst₁.mount.image] at hfull
          rw [ensures_pure, hst₁.mount.image]
          by_cases hzero : v.length = 0
          · rw [hzero, List.take_zero]
            exact (List.eq_nil_of_length_eq_zero hzero).symm
          · rw [← window_eq_drop_take (by omega), hm]
            refine (window_congr fun i _ h₂ => ?_).trans hval
            exact peek_take (by omega)
      · exact fun _ _ hf => erred_of_faultedStore hf
  · exact fun _ _ hf => erred_of_faultedStore hf

theorem load_erred (hN : N ≤ maxStoreDepth) (m : Mount N τ) :
    Ensures load m
      (fun _ m' => image m' = image m ∧ ∀ s : TreeStrategy N, HeaderAt (image m) s → FieldsFit s →
        m'.strategy.recordSlotSize = s.recordSlotSize) Erred := by
  rw [load]
  apply (originLen_spec m).andThen
  intro len m hm
  obtain ⟨rfl, rfl⟩ := hm
  apply ensures_ite
  · intro hshort
    rw [ensures_pure]
    exact ⟨rfl, fun s hs _ => absurd hs.room (Nat.not_le_of_lt hshort)⟩
  · intro hroom
    have hroom : 64 ≤ (image m).length := Nat.le_of_not_lt hroom
    apply (readOrigin_spec m 0 headerLen).bind
    · intro data m₁ hdata
      obtain ⟨rfl, hm₁⟩ := hdata
      rw [headerBuffer hroom]
      dsimp only
      have hfields : ∀ s : TreeStrategy N, HeaderAt (image m) s → FieldsFit s →
          HeaderFields ((image m).take 64) s := by
        intro s hs hfit
        rw [hs.bytes]
        exact headerFields_headerBytes hN hfit
      apply ensures_ite
      · intro hmagic
        rw [ensures_pure]
        exact ⟨hm₁.image, fun s hs hfit => absurd (hfields s hs hfit).magic hmagic⟩
      · intro _
        rw [ensures_bind, ensures_get]
        apply ensures_ite
        · exact fun _ => ensures_throw.mpr trivial
        · intro _
          apply ensures_ite
          · exact fun _ => ensures_throw.mpr trivial
          · intro _
            rw [ensures_bind, ensures_set]
            apply ensures_ite
            · exact fun _ => ensures_throw.mpr trivial
            · intro _
              apply ensures_ite
              · exact fun _ => ensures_throw.mpr trivial
              · intro _
                rw [ensures_pure]
                exact ⟨hm₁.image, fun s hs hfit => (hfields s hs hfit).recordSlotSize⟩
    · exact fun _ _ hf => erred_of_faulted hf

def Yields (r : Except (Stop MapError) (Option Bytes)) (Q : Option Bytes → Prop) : Prop :=
  (∃ e, r = .error (.err e)) ∨ ∃ v, r = .ok v ∧ Q v

omit [ByteOrigin τ] in
theorem yields_answer {st : CoordMapStore 64 N τ} {x : MapProgram 64 N τ (Option Bytes)}
    {Q : Option Bytes → Prop} (h : Ensures x st (fun v _ => Q v) Erred) :
    Yields (answer x st).1 Q := by
  rcases answer_cases h with ⟨v, st', hx, hv⟩ | ⟨e, st', hx, he⟩
  · rw [hx]
    exact .inr ⟨v, rfl, hv⟩
  · rw [hx]
    cases e with
    | err e => exact .inl ⟨e, rfl⟩
    | panic cause => exact he.elim

/-- Over an origin that `load` refuses there is nothing to look up. -/
theorem yields_readBack {o : τ} (d : SlotSize) {p : CoordPath N} {Q : Option Bytes → Prop}
    {P : Mount N τ → Prop}
    (hload : Ensures load (⟨freshFields N d.val, o⟩ : Mount N τ) (fun _ m' => P m') Erred)
    (hget : ∀ st : CoordMapStore 64 N τ, P st.mount → Yields (answer (getPath p) st).1 Q) :
    Yields (readBack 64 o d.val p) Q := by
  rw [readBack]
  obtain ⟨st, hst, hP, -, -⟩ | ⟨e, m, he, herred⟩ := load_cases (w := 64) d.property.1 hload
  · rw [hst]
    exact hget st hP
  · rw [he]
    cases e with
    | err e => exact .inl ⟨_, rfl⟩
    | panic cause => exact herred.elim

/-- What `get_path` returned before and what it returns over the first `t` bytes. -/
structure CutAnswer (t : ℕ) (p : CoordPath N) (before : Reply N) (after : Option Bytes) :
    Prop where
  /-- A value is the one that was there. -/
  some : ∀ v, after = some v → before = .ok (.value after)
  /-- A value is only missing if the cut is not behind the root slot of its path. -/
  none : after = none → before = .ok (.value none) ∨
    ∃ c rest, p.coords = c :: rest ∧ t ≤ slotAddr rootOffset c

theorem getPath_cut {st : CoordMapStore 64 N τ} (hstored : Image N b L) (hvalid : L.Valid N)
    (hN : 0 < N) (hm : image st.mount = b.take t)
    (hslot : 64 ≤ t → st.mount.strategy.recordSlotSize = L.slot) (p : CoordPath N) :
    Ensures (getPath p) st (fun v _ => CutAnswer t p (.ok (.value (L.contents p))) v) Erred := by
  rw [getPath]
  apply (onStrategy_spec (locate_cut hstored hvalid hN hm p)).bind
  · intro s st' hs
    obtain ⟨-, ⟨c, rest, hp, hor⟩, hsame⟩ := hs
    have hi : image st'.mount = b.take t := hsame.image.trans hm
    apply ensures_ite
    · intro habsent
      rw [ensures_pure]
      constructor
      · exact fun v hv => by cases hv
      · intro _
        cases hor with
        | inl hbefore =>
          refine .inl ?_
          rw [contents, if_pos (hbefore.2.symm.trans habsent)]
        | inr hcut => exact .inr ⟨c, rest, hp, hcut.1⟩
    · intro hfound
      obtain ⟨hbefore, hs⟩ : slotAddr rootOffset c < t ∧ s.recordOffset = L.ptr p.coords :=
        hor.resolve_right fun hcut => hfound hcut.2
      have hptr : L.ptr p.coords ≠ 0 := hs ▸ hfound
      have hlen := p.length_coords
      have hend := hvalid.entry_upper (coords_ne_nil hN p) hptr
      have hfit := hvalid.fits _ hlen hptr
      have hbump := hvalid.bump_lt
      have hheader : 64 ≤ t := by
        have : rootOffset = 64 := rfl
        rw [slotAddr_eq] at hbefore
        omega
      rw [spanOf_record hlen] at hend
      rw [hs]
      apply (readRecord_cut (hsame.strategy ▸ hslot hheader) hvalid.slot_lt hi
        (hstored.records _ hlen hptr) hfit (hvalid.sized _ hlen hptr) (by omega)).andThen
      intro value st₁ hvalue
      rw [ensures_pure, hvalue, contents, if_neg hptr]
      constructor
      · intro v hv
        rw [hv]
      · exact fun hv => by cases hv
  · intro e st' he
    obtain ⟨-, e, rfl, he⟩ := he
    exact refused_map.mpr (he.imp fun _ _ => trivial)

theorem headerAt_take {s : TreeStrategy N} (h : HeaderAt b s) (ht : 64 ≤ t) :
    HeaderAt (b.take t) s where
  room := by
    rw [List.length_take]
    exact le_min ht h.room
  bytes := by rw [List.take_take, min_eq_left ht, h.bytes]

/-- Every prefix of a flushed store is opened and read without a wrong answer. -/
theorem readBack_cut {st : CoordMapStore 64 N σ} (hN : 0 < N) (hN' : N ≤ maxStoreDepth)
    (h : Holds st L) (hhead : HeaderAt (image st.mount) (liveFields st)) {o : τ}
    (ho : ByteOrigin.bytes o = (image st.mount).take t) (d : SlotSize) (p : CoordPath N) :
    Yields (readBack 64 o d.val p) (CutAnswer t p (.ok (.value (L.contents p)))) := by
  apply yields_readBack d (load_erred hN' ⟨freshFields N d.val, o⟩)
  intro st' hst'
  obtain ⟨hi, hadopt⟩ := hst'
  apply yields_answer
  apply getPath_cut h.mount.stored h.mount.valid hN (hi.trans ho)
  intro ht
  have hcut : HeaderAt (ByteOrigin.bytes o) (liveFields st) :=
    ho.symm ▸ headerAt_take hhead ht
  exact (hadopt _ hcut (loadable_live h hN).toFieldsFit).trans h.mount.fields.slot

theorem readBack_pathless (d : SlotSize) (o : τ) (p : CoordPath 0) (Q : Option Bytes → Prop) :
    Yields (readBack 64 o d.val p) Q := by
  apply yields_readBack d (load_erred (Nat.zero_le _) ⟨freshFields 0 d.val, o⟩)
  intro st' _
  rw [answer_of_error (getPath_pathless st' p)]
  exact .inl ⟨_, rfl⟩

/-- However a flushed store is cut off, `load` and `get_path` find what was there, or an error,
or nothing where the cut is not behind the root slot of the path. -/
theorem truncation_never_misread (hfail : NeverFails σ) (hN : N ≤ maxStoreDepth) {o : σ}
    (ho : ByteOrigin.bytes o = []) (d : SlotSize) :
    ∃ st : CoordMapStore 64 N σ, CoordMapStore.new o d.val = .ok st ∧
      ∀ xs : List (Step N), ∃ st', flush (run Step.perform xs st).2 = .ok ⟨⟩ st' ∧
        ∀ t ≤ (image st'.mount).length, ∀ o' : τ, ByteOrigin.bytes o' = (image st'.mount).take t →
          ∀ (d' : SlotSize) (p : CoordPath N),
            Yields (readBack 64 o' d'.val p) (CutAnswer t p ((MapCall.get p).perform st').1) := by
  by_cases h0 : 0 < N
  · obtain ⟨st, hnew, hst, -⟩ := refines_new ho h0 d
    refine ⟨st, hnew, fun xs => ?_⟩
    obtain ⟨-, hrun⟩ := run_steps hfail h0 hN hst xs
    obtain ⟨_, st', hflush, hflushed⟩ := ((flush_spec hrun.holds).mono (fun _ _ hs => hs)
      fun _ _ hb => not_broken hfail hb).exists_ok
    refine ⟨st', hflush, fun t _ o' ho' d' p => ?_⟩
    rw [((MapCall.get p).perform_eq hfail h0 hflushed.holds).1]
    exact readBack_cut h0 hN hflushed.holds hflushed.header ho' d' p
  · have hzero : N = 0 := Nat.eq_zero_of_not_pos h0
    subst hzero
    refine ⟨_, new_spec o d.property.1, fun xs => ?_⟩
    obtain ⟨_, st', hflush, -⟩ := ((flush_written (run Step.perform xs
      (⟨⟨freshFields 0 d.val, o⟩, 0, false⟩ : CoordMapStore 64 0 σ)).2).mono (fun _ _ hs => hs)
        fun _ _ hb => not_broken hfail (hb.mono fun _ _ hs => hs.1)).exists_ok
    exact ⟨st', hflush, fun t _ o' _ d' p => readBack_pathless d' o' p _⟩

theorem truncation_never_misread_ideal :
    ∃ st : CoordMapStore 64 6 IdealOrigin, CoordMapStore.new ⟨[]⟩ 64 = .ok st ∧
      ∀ xs : List (Step 6), ∃ st', flush (run Step.perform xs st).2 = .ok ⟨⟩ st' ∧
        ∀ t ≤ (image st'.mount).length, ∀ o' : IdealOrigin,
          ByteOrigin.bytes o' = (image st'.mount).take t →
          ∀ (d' : SlotSize) (p : CoordPath 6),
            Yields (readBack 64 o' d'.val p) (CutAnswer t p ((MapCall.get p).perform st').1) :=
  truncation_never_misread IdealOrigin.neverFails (by decide) rfl ⟨64, by decide⟩

end Chton.Truncations
