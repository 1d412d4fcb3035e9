import Chton.OriginMirrors
import Chton.StoreRuns

/-!
# Origins with a bound

A vector, a file or a mapping ends somewhere. The origin below is a byte region that notes when a
call reaches its bound, and fails it. As long as none does, it agrees with every origin that holds
the same bytes and does below the bound what a region does, and with the region that has no end.
The specifications of the store are about the latter, and hold of a store over the bounded region
whenever a call returns.
-/

namespace Chton.BoundedOrigins
open OutcomePrograms CallRuns MirroredPrograms ByteRegions Origins TreeStrategyProgram
open CoordMapProgram StoreLayouts StrategyCalls RecordCalls OriginMirrors StoreRuns

structure BoundedOrigin (bound : ℕ) where
  data : Bytes
  overrun : Bool
  deriving DecidableEq

variable {N bound : ℕ} {τ α : Type}

def BoundedOrigin.within (stop : ℕ) (x : EStateM (Stop OriginError) (BoundedOrigin bound) α) :
    EStateM (Stop OriginError) (BoundedOrigin bound) α :=
  if stop < bound then x else do
    modify fun o => { o with overrun := true }
    throw (.err (.outOfBounds stop bound))

/-- A call that reaches too far leaves the region as it is. -/
theorem within_spec {stop : ℕ} {x : EStateM (Stop OriginError) (BoundedOrigin bound) α}
    {o : BoundedOrigin bound} {Q : α → BoundedOrigin bound → Prop} (h : ∀ E, Ensures x o Q E) :
    Ensures (BoundedOrigin.within stop x) o Q (Refused fun _ o' => True ∧ o'.data = o.data) := by
  rw [BoundedOrigin.within]
  apply ensures_ite
  · exact fun _ => h _
  · intro _
    rw [ensures_bind, ensures_modify, ensures_throw]
    exact ⟨trivial, rfl⟩

instance : ByteOrigin (BoundedOrigin bound) where
  len o := o.data.length
  read offset n := BoundedOrigin.within (offset + n) do
    let o ← get
    pure ((o.data.drop offset).take n)
  write offset data := BoundedOrigin.within (offset + data.length) do
    modify fun o => { o with data := overlay o.data offset data }
  flush := pure ()
  bytes := BoundedOrigin.data
  mayFail := True
  len_eq _ := rfl
  read_spec o offset n := by
    apply within_spec
    intro E
    rw [ensures_bind, ensures_get, ensures_pure]
    exact ⟨rfl, rfl⟩
  write_spec o offset data _ _ := by
    apply within_spec
    intro E
    rw [ensures_modify]
  flush_spec _ := ensures_pure.mpr rfl

theorem within_of_lt {x : EStateM (Stop OriginError) (BoundedOrigin bound) α} {stop : ℕ}
    (h : stop < bound) : BoundedOrigin.within stop x = x := by
  rw [BoundedOrigin.within, if_pos h]

theorem within_of_le {x : EStateM (Stop OriginError) (BoundedOrigin bound) α} {stop : ℕ}
    (h : bound ≤ stop) (s : BoundedOrigin bound) :
    ∃ e s', BoundedOrigin.within stop x s = .error e s' ∧ s'.overrun = true := by
  refine ⟨.err (.outOfBounds stop bound), { s with overrun := true }, ?_, rfl⟩
  rw [BoundedOrigin.within, if_neg (Nat.not_lt.mpr h)]
  rfl

theorem read_bounded (s : BoundedOrigin bound) {offset n : ℕ} (h : offset + n < bound) :
    Origin.read offset n s = .ok ((s.data.drop offset).take n) s := by
  change BoundedOrigin.within (offset + n) _ s = _
  rw [within_of_lt h]
  rfl

theorem write_bounded (s : BoundedOrigin bound) {offset : ℕ} {data : Bytes}
    (h : offset + data.length < bound) :
    Origin.write offset data s = .ok ⟨⟩ { s with data := overlay s.data offset data } := by
  change BoundedOrigin.within (offset + data.length) _ s = _
  rw [within_of_lt h]
  rfl

/-- An origin with `holds b` does below the bound what the region `b` does. -/
structure Holding [Origin τ] (bound : ℕ) (holds : Bytes → τ → Prop) : Prop where
  len : ∀ {b t}, holds b t → Origin.len t = b.length
  read : ∀ {b t} offset n, holds b t → b.length < bound → offset + n < bound →
    Origin.read offset n t = .ok ((b.drop offset).take n) t
  write : ∀ {b t} offset data, holds b t → b.length < bound → data ≠ [] →
    offset + data.length < bound →
      ∃ t', Origin.write offset data t = .ok ⟨⟩ t' ∧ holds (overlay b offset data) t'
  flush : ∀ {b t}, holds b t → Origin.flush t = .ok ⟨⟩ t

def boundedMirror (bound : ℕ) (holds : Bytes → τ → Prop) : Mirror (BoundedOrigin bound) τ where
  related s t := s.data.length < bound ∧ holds s.data t
  overrun s := s.overrun = true

theorem Holding.mirrors [Origin τ] {holds : Bytes → τ → Prop} (h : Holding bound holds)
    (hbound : 0 + headerLen < bound) : OriginsMirror (boundedMirror bound holds) where
  len _ _ hst := (h.len hst.2).symm
  header s _ hst := mirrorsAt_ok (read_bounded s hbound) (h.read _ _ hst.2 hst.1 hbound) hst
  read offset n s t hst := by
    by_cases hend : offset + n < bound
    · exact mirrorsAt_ok (read_bounded s hend) (h.read _ _ hst.2 hst.1 hend) hst
    · exact .inl (within_of_le (Nat.le_of_not_lt hend) s)
  write offset data hdata s t hst := by
    by_cases hend : offset + data.length < bound
    · obtain ⟨t', hwrite, hheld⟩ := h.write offset data hst.2 hst.1 hdata hend
      refine mirrorsAt_ok (write_bounded s hend) hwrite ⟨?_, hheld⟩
      rw [length_overlay]
      exact max_lt hst.1 hend
    · exact .inl (within_of_le (Nat.le_of_not_lt hend) s)
  flush _ _ hst := mirrorsAt_ok rfl (h.flush hst.2) hst

abbrev HoldsIdeal (b : Bytes) (t : IdealOrigin) : Prop := t = ⟨b⟩

theorem holding_ideal (bound : ℕ) : Holding bound HoldsIdeal where
  len h := by rw [h]; rfl
  read _ _ h _ _ := by rw [h]; rfl
  write _ _ h _ _ _ := ⟨_, rfl, by rw [h]⟩
  flush _ := rfl

/-- The same store over the region without an end. -/
def idealOf (x : CoordMapStore 64 N (BoundedOrigin bound)) : CoordMapStore 64 N IdealOrigin :=
  ⟨⟨x.mount.strategy, ⟨x.mount.origin.data⟩⟩, x.len, x.dirty⟩

structure Bounded (x : CoordMapStore 64 N (BoundedOrigin bound)) : Prop where
  nodeSize : x.mount.strategy.nodeSize = nodeSpan
  length : x.mount.origin.data.length < bound

theorem related_idealOf {x : CoordMapStore 64 N (BoundedOrigin bound)} (h : Bounded x) :
    StoresRelated (boundedMirror bound HoldsIdeal) x (idealOf x) :=
  ⟨⟨rfl, h.nodeSize, h.length, rfl⟩, rfl, rfl⟩

theorem eq_idealOf {x : CoordMapStore 64 N (BoundedOrigin bound)} {z : CoordMapStore 64 N IdealOrigin}
    (h : StoresRelated (boundedMirror bound HoldsIdeal) x z) : Bounded x ∧ z = idealOf x := by
  obtain ⟨⟨hstrategy, hsize, hlength, horigin⟩, hlen, hdirty⟩ := h
  obtain ⟨⟨strategy, origin⟩, len, dirty⟩ := z
  cases hstrategy
  cases horigin
  cases hlen
  cases hdirty
  exact ⟨⟨hsize, hlength⟩, rfl⟩

/-- A specification of a program over the region without an end holds whenever the program returns
over the bounded one. -/
theorem ensures_of_ideal {x : CoordMapStore 64 N (BoundedOrigin bound)}
    {prog : MapProgram 64 N (BoundedOrigin bound) α} {prog' : MapProgram 64 N IdealOrigin α}
    {Q : α → CoordMapStore 64 N IdealOrigin → Prop}
    {E : Stop MapError → CoordMapStore 64 N IdealOrigin → Prop} (hx : Bounded x)
    (hm : StoreMirrors (boundedMirror bound HoldsIdeal) prog prog')
    (h : Ensures prog' (idealOf x) Q E) :
    Ensures prog x (fun a x' => Bounded x' ∧ Q a (idealOf x')) fun _ _ => True := by
  apply ((hm x (idealOf x) (related_idealOf hx)).ensures h).mono
  · intro a x' hz
    obtain ⟨z, hz, hQ⟩ := hz
    obtain ⟨hbounded, rfl⟩ := eq_idealOf hz
    exact ⟨hbounded, hQ⟩
  · exact fun _ _ _ => trivial

theorem mirrors_storeCall [Origin τ] {M : Mirror (BoundedOrigin bound) τ} (hM : OriginsMirror M)
    (c : StoreCall N) :
    StoreMirrors M (c.program : MapProgram 64 N (BoundedOrigin bound) (Answer N)) c.program := by
  cases c with
  | map c =>
    cases c with
    | get p => exact (mirrors_getPath hM p).bind fun _ => Mirrors.pure _
    | put p v => exact (mirrors_putPath hM p v.val).bind fun _ => Mirrors.pure _
    | remove p => exact (mirrors_removePath hM p).bind fun _ => Mirrors.pure _
    | clear => exact (mirrors_clearChecked hM).bind fun _ => Mirrors.pure _
  | iter => exact (mirrors_entries hM).bind fun _ => Mirrors.pure _
  | len =>
    apply mirrors_get_bind
    intro st st' hst
    rw [hst.len]
    exact MirrorsAt.pure (M := storeMirror N 64 M) hst _
  | flush => exact (mirrors_flush hM).bind fun _ => Mirrors.pure _

variable (bound) in
def cleanMirror : Mirror (BoundedOrigin bound) (BoundedOrigin bound) where
  related s t := t = s ∧ s.overrun = false
  overrun s := s.overrun = true

theorem cleanMirror_origins (hbound : 0 + headerLen < bound) : OriginsMirror (cleanMirror bound) where
  len s t hst := by rw [hst.1]
  header s t hst := by
    have hread := read_bounded s hbound
    exact mirrorsAt_ok hread (hst.1 ▸ hread) ⟨rfl, hst.2⟩
  read offset n s t hst := by
    obtain ⟨rfl, hclean⟩ := hst
    by_cases hend : offset + n < bound
    · exact mirrorsAt_ok (read_bounded t hend) (read_bounded t hend) ⟨rfl, hclean⟩
    · exact .inl (within_of_le (Nat.le_of_not_lt hend) t)
  write offset data _ s t hst := by
    obtain ⟨rfl, hclean⟩ := hst
    by_cases hend : offset + data.length < bound
    · exact mirrorsAt_ok (write_bounded t hend) (write_bounded t hend) ⟨rfl, hclean⟩
    · exact .inl (within_of_le (Nat.le_of_not_lt hend) t)
  flush s t hst := mirrorsAt_ok rfl (by rw [hst.1]; rfl) hst

abbrev Clean (st : CoordMapStore 64 N (BoundedOrigin bound)) : Prop :=
  st.mount.origin.overrun = false

/-- Opening a region reads no further than its header. -/
theorem clean_reload (hbound : 0 + headerLen < bound) (d : SlotSize)
    {st : CoordMapStore 64 N (BoundedOrigin bound)} (h : Clean st) :
    Ensures (reload d) st (fun _ st' => Clean st') fun _ st' => Clean st' := by
  have hrelated : (cleanMirror bound).related st.mount.origin st.mount.origin := ⟨rfl, h⟩
  obtain ⟨e, hload, -⟩ | ⟨st₁, st₂, hload, -, hloaded⟩ :=
    load_mirrors (N := N) (w := 64) (cleanMirror_origins hbound) hrelated d.val
  · exact (ensures_of_error (by rw [reload, hload])).mpr h
  · exact (ensures_of_ok (by rw [reload, hload])).mpr hloaded.mount.origin.2

theorem clean_reopen (hbound : 0 + headerLen < bound) (d : SlotSize)
    {st : CoordMapStore 64 N (BoundedOrigin bound)}
    (h : Clean ((Step.call .flush).perform st).2) : Clean ((Step.reopen d).perform st).2 := by
  have hcall : Ensures (Step.call .flush).program st (fun _ st' => Clean st')
      fun _ st' => Clean st' := ensures_answer.mpr h
  have hflush : Ensures flush st (fun _ st' => Clean st') fun _ st' => Clean st' := by
    apply (ensures_bind.mp hcall).mono
    · intro _ st' hst'
      rwa [ensures_pure] at hst'
    · exact fun _ _ hst' => hst'
  apply ensures_answer.mp
  apply Ensures.andThen (Q := fun _ st' => Clean st')
  · exact hflush.andThen fun _ _ hst => clean_reload hbound d hst
  · exact fun _ _ hst => ensures_pure.mpr hst

/-- A run that may end with a flush may end with a reopening. -/
theorem clean_last (hbound : 0 + headerLen < bound) (xs : List (Step N)) (d : SlotSize)
    (st : CoordMapStore 64 N (BoundedOrigin bound))
    (h : Clean (run Step.perform (xs ++ [.call .flush]) st).2) :
    Clean (run Step.perform (xs ++ [.reopen d]) st).2 := by
  have hends (x : Step N) : (run Step.perform (xs ++ [x]) st).2 =
      (x.perform (run Step.perform xs st).2).2 := congrArg Prod.snd run_append
  rw [hends] at h ⊢
  exact clean_reopen hbound d h

end Chton.BoundedOrigins
