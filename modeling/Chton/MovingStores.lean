import Chton.PortableImages
import Chton.ResultVectors

/-!
# Stores that move between targets

A store is used on one target, flushed, and its image opened on another, whose `usize` may be
wider or narrower. Images of other programs can be read differently there. The images that the
store writes itself cannot: as long as they stay below 2^30 bytes, and what is listed fits the
vectors of the target, a store that moves answers every call as a store that stays on a 64-bit
target, over a region and with vectors that have no end.
-/

namespace Chton.MovingStores
open OutcomePrograms CallRuns MirroredPrograms ByteRegions Origins TreeStrategyProgram
open CoordMapProgram StoreLayouts StoreLayouts.Layout StrategyCalls HeaderCalls MapCalls MapUpdates
open StoreReopening MemoryOrigins OriginMirrors StoreRuns BoundedOrigins PortableImages
open Enumerations LayoutContents ResultVectors

variable {N w : ℕ} {x : CoordMapStore 64 N NarrowOrigin} {y : CoordMapStore w N (GrowingOrigin w)}
variable {L : Layout}

section
variable {σ : Type} [Origin σ]

/-- The programs of the calls on a target with `w` bits. -/
def mapCall : MapCall N → MapProgram w N σ (Answer N)
  | .get p => do
    let v ← getPath p
    pure (.value v)
  | .put p v => do
    let prev ← putPath p v.val
    pure (.value prev)
  | .remove p => do
    let prev ← removePath p
    pure (.value prev)
  | .clear => do
    clearChecked
    pure .done

def storeCall (z : ElementSizes) : StoreCall N → MapProgram w N σ (Answer N)
  | .map c => mapCall c
  | .iter => do
    let es ← entriesWithin z
    pure (.entries es)
  | .len => do
    let st ← get
    pure (.count st.len)
  | .flush => do
    CoordMapProgram.flush
    pure .done

end

/-- The store that `x` is without the end of its region refines a layout. -/
structure Whole (x : CoordMapStore 64 N NarrowOrigin) (L : Layout) : Prop where
  bounded : Bounded x
  refines : Refines (idealOf x) L
  short : L.slot < 2 ^ 32

theorem Whole.sound (h : Whole x L) : Sound x L := ⟨h.bounded, h.refines.holds.mount, h.short⟩

abbrev Overran (x : CoordMapStore 64 N NarrowOrigin) : Prop := x.mount.origin.overrun = true

/-- An enumeration over a narrow region lists the layout, unless it reaches too far. -/
theorem whole_entries (hN : 0 < N) (hx : Whole x L) :
    (∃ e x', entries x = .error e x' ∧ Overran x') ∨
      ∃ x', entries x = .ok (entriesOf N L) x' := by
  have hideal := entries_spec hN hx.refines.holds.mount hx.refines.synced
  have hmirror := mirrors_entries ideals_mirror x (idealOf x) (related_idealOf hx.bounded)
  rcases hmirror.cases with hover | ⟨es, x', z, hxs, hzs, -⟩ | ⟨e, x', z, -, hzs, -⟩
  · exact .inl hover
  · obtain ⟨rfl, -⟩ := hideal.ok hzs
    exact .inr ⟨x', hxs⟩
  · exact (not_faulted IdealOrigin.neverFails (hideal.error hzs)).elim

/-- An enumeration on a target does the same with vectors that fit there. -/
theorem port_entriesWithin (hw : 32 ≤ w) (hN : 0 < N) (h : Ported x y) (hx : Whole x L)
    {z : ElementSizes} (hfit : EntriesFit w z y.len) :
    MirrorsAt (portMirror N w) entries (entriesWithin z) x y := by
  rcases whole_entries hN hx with hover | ⟨x', hxs⟩
  · exact .inl hover
  have hlength : (entriesOf N L).length = y.len := by
    rw [entriesOf, List.length_map, length_livePaths hx.sound.represents.valid, ← h.len]
    exact hx.refines.holds.len.symm
  rcases (port_entries hw hN h hx.sound hx.refines.synced).cases with
    ⟨e, x'', hf, -⟩ | ⟨es, x'', y', hx'', hys, hxy⟩ | ⟨e, x'', y', hf, -⟩
  · cases hxs.symm.trans hf
  · cases hxs.symm.trans hx''
    exact mirrorsAt_ok hxs (entriesWithin_of_ok hys (hlength ▸ hfit)) hxy
  · cases hxs.symm.trans hf

/-- Every call does on a target with `w` bits what it does on one with 64. -/
theorem port_call (hw : 32 ≤ w) (hN : 0 < N) (h : Ported x y) (hx : Whole x L) (c : StoreCall N)
    {z : ElementSizes} (hfit : c = .iter → EntriesFit w z y.len) :
    MirrorsAt (portMirror N w) c.program (storeCall z c) x y := by
  have hpure (a : Answer N) : Ports (pure a) (pure a : MapProgram w N (GrowingOrigin w) (Answer N)) :=
    Mirrors.pure a
  cases c with
  | map c =>
    cases c with
    | get p => exact (port_getPath hw hN h hx.sound p).bind fun v => hpure (.value v)
    | put p v =>
      exact (port_putPath hw hN h hx.sound hx.refines.holds.len p v.val).bind fun prev =>
        hpure (.value prev)
    | remove p => exact (port_removePath hw hN h hx.sound p).bind fun prev => hpure (.value prev)
    | clear => exact (ports_clearChecked hw x y h).bind fun _ => hpure .done
  | iter =>
    exact (port_entriesWithin hw hN h hx (hfit rfl)).bind fun es => hpure (.entries es)
  | len =>
    have hlen : (storeCall z .len : MapProgram w N (GrowingOrigin w) (Answer N)) y =
        .ok (.count x.len) y := by
      rw [h.len]
      rfl
    exact mirrorsAt_ok rfl hlen h
  | flush => exact (ports_flush hw x y h).bind fun _ => hpure .done

theorem new_eq {σ : Type} [Origin σ] (o : σ) {slot : ℕ} (h8 : 8 ≤ slot) :
    (CoordMapStore.new o slot : Except (Stop MapError) (CoordMapStore w N σ)) =
      .ok ⟨⟨freshFields N slot, o⟩, 0, false⟩ := by
  rw [CoordMapStore.new, TreeStrategy.new, if_neg (Nat.not_lt.mpr h8)]
  rfl

theorem load_eq {σ : Type} [Origin σ] {o : σ} {d : ℕ} {st : CoordMapStore 64 N σ}
    (h : CoordMapStore.load o d = .ok st) :
    (CoordMapStore.load o d : Except (Stop MapError) (CoordMapStore w N σ)) =
      .ok ⟨st.mount, asUsize w st.mount.strategy.recordCount, false⟩ := by
  rw [CoordMapStore.load] at h ⊢
  cases hopen : (loadOrNew o d : Except (Stop BindingError) (Mount N σ)) with
  | error e =>
    rw [hopen] at h
    cases h
  | ok m =>
    rw [hopen] at h
    cases h
    rfl

theorem Whole.len_lt (h : Whole x L) (hN : 0 < N) : x.len + 1 < 2 ^ 32 :=
  h.sound.len_lt hN h.refines.holds.len

/-- A flushed store opens on every target. -/
theorem port_load (hw : 32 ≤ w) (hN : 0 < N) (hN' : N ≤ maxStoreDepth) (hx : Whole x L)
    (hheader : HeaderAt x.mount.origin.data (liveFields (idealOf x))) {d : ℕ} (hd : 8 ≤ d)
    {o : GrowingOrigin w} (ho : o.data = x.mount.origin.data) :
    ∃ (x' : CoordMapStore 64 N NarrowOrigin) (y' : CoordMapStore w N (GrowingOrigin w)),
      CoordMapStore.load x.mount.origin d = .ok x' ∧
      CoordMapStore.load o d = .ok y' ∧
      CoordMapStore.load (⟨x.mount.origin.data⟩ : IdealOrigin) d = .ok (idealOf x') ∧
      Ported x' y' ∧ Whole x' L := by
  have hbounded := hx.bounded.length
  obtain ⟨z, hload, hopened, hholds⟩ := @load_current N IdealOrigin IdealOrigin _ _ (idealOf x) L
    ⟨x.mount.origin.data⟩ d IdealOrigin.neverFails hN hN' hd hx.refines.holds rfl hheader
  obtain ⟨e, -, hf⟩ | ⟨x', z', hx', hz', hrelated⟩ := load_mirrors (N := N) (w := 64)
    ideals_mirror (o := x.mount.origin) ⟨hbounded, rfl⟩ d
  · cases hload.symm.trans hf
  cases hload.symm.trans hz'
  obtain ⟨hbounded', rfl⟩ := eq_idealOf hrelated
  have hrelated' : (vectorMirror w).related x.mount.origin o := ⟨hbounded, ho⟩
  obtain ⟨e, hf, -⟩ | ⟨x'', y', hx'', hy', hported⟩ :=
    load_mirrors (N := N) (w := w) (vectors_mirror hw) hrelated' d
  · cases (load_eq hx').symm.trans hf
  cases (load_eq hx').symm.trans hx''
  have hcount : x'.mount.strategy.recordCount = x.len := congrArg TreeStrategy.recordCount hopened.strategy
  have hlt := Whole.len_lt hx hN
  have himage : image (idealOf x').mount = image (idealOf x).mount := hopened.image
  have hlen : x'.len = x.len := hopened.len
  refine ⟨x', y', hx', hy', hload, ⟨hported.mount, ?_, hopened.dirty.trans hported.dirty⟩, hbounded', ?_,
    hx.short⟩
  · rw [← hported.len, hcount, asUsize_of_short hw (by omega), hlen]
  · exact ⟨hholds, himage ▸ hx.refines.synced, hx.refines.whole⟩

abbrev ShortSize := {d : ℕ // 8 ≤ d ∧ d < 2 ^ 32}

def ShortSize.size (d : ShortSize) : SlotSize := ⟨d.val, d.property.1, by
  have hd := d.property.2
  omega⟩

abbrev Spare := {n : ℕ // n < 2 ^ 30}

structure Target (N : ℕ) where
  bits : ℕ
  wide : 32 ≤ bits
  store : CoordMapStore bits N (GrowingOrigin bits)

/-- A call, or closing the store and opening its image on another target. -/
inductive Hop (N : ℕ) where
  | call (c : StoreCall N)
  | move (bits : ℕ) (wide : 32 ≤ bits) (d : ShortSize) (spare : Spare)

def Hop.step : Hop N → Step N
  | .call c => .call c
  | .move _ _ d _ => .reopen d.size

def vectorOn (bits : ℕ) (data : Bytes) (spare : Spare) : Option (GrowingOrigin bits) :=
  if h : data.length + spare < 2 ^ (bits - 1) then
    some ⟨data, data.length + spare, Nat.le_add_right _ _, h⟩
  else none

def openOn (bits : ℕ) (wide : 32 ≤ bits) (d : ShortSize) (spare : Spare) (t : Target N) :
    Reply N × Target N :=
  match vectorOn bits t.store.mount.origin.data spare with
  | none => (.error (.panic .capacity), t)
  | some o =>
    match CoordMapStore.load o d.val with
    | .ok st => (.ok .done, ⟨bits, wide, st⟩)
    | .error e => (.error e, t)

/-- The layout of the tuples that are listed is up to the compiler of each target. -/
def Hop.perform (z : ℕ → ElementSizes) (h : Hop N) (t : Target N) : Reply N × Target N :=
  match h with
  | .call c => ((answer (storeCall (z t.bits) c) t.store).1,
      { t with store := (answer (storeCall (z t.bits) c) t.store).2 })
  | .move bits wide d spare =>
    match flush t.store with
    | .ok _ st => openOn bits wide d spare { t with store := st }
    | .error e st => (.error e, { t with store := st })

def FitsListing (z : ℕ → ElementSizes) (t : Target N) : Prop :=
  EntriesFit t.bits (z t.bits) t.store.len

structure Follows (x : CoordMapStore 64 N NarrowOrigin) (t : Target N) (L : Layout) : Prop where
  ported : Ported x t.store
  whole : Whole x L

theorem whole_call (hN : 0 < N) (hx : Whole x L) (c : StoreCall N) :
    (∃ e x', c.program x = .error e x' ∧ Overran x') ∨
      (c.perform x).1 = (c.onLayout L).1 ∧ (c.perform (idealOf x)).2 = idealOf (c.perform x).2 ∧
        Whole (c.perform x).2 (c.onLayout L).2 := by
  apply (mirrors_storeCall ideals_mirror c x (idealOf x) (related_idealOf hx.bounded)).imp_right
  intro h
  obtain ⟨hreply, hrelated⟩ := h
  obtain ⟨hideal, hrefines⟩ := c.perform_eq IdealOrigin.neverFails hN hx.refines
  obtain ⟨hbounded, heq⟩ := eq_idealOf hrelated
  have hslot : (c.onLayout L).2.slot = L.slot := slot_onLayout hx.refines.holds.mount.valid (.call c)
  refine ⟨hreply.trans hideal, heq, hbounded, ?_, ?_⟩
  · rw [StoreCall.perform, heq] at hrefines
    exact hrefines
  · rw [hslot]
    exact hx.short

/-- A flush leaves the header of the live fields, on both sides. -/
theorem port_flush (hw : 32 ≤ w) (h : Ported x y) (hx : Whole x L) :
    (∃ e x', flush x = .error e x' ∧ Overran x') ∨
      ∃ x' y', flush x = .ok ⟨⟩ x' ∧ flush y = .ok ⟨⟩ y' ∧ flush (idealOf x) = .ok ⟨⟩ (idealOf x') ∧
        Ported x' y' ∧ Whole x' L ∧ HeaderAt x'.mount.origin.data (liveFields (idealOf x')) := by
  have hideal := flush_spec hx.refines.holds
  have hmirror := mirrors_flush ideals_mirror x (idealOf x) (related_idealOf hx.bounded)
  rcases hmirror.cases with hover | ⟨⟨⟩, x', z, hxs, hzs, hrelated⟩ | ⟨e, x', z, -, hzs, -⟩
  · exact .inl hover
  · obtain ⟨hbounded, rfl⟩ := eq_idealOf hrelated
    have hflushed := hideal.ok hzs
    have hwhole : Whole x' L :=
      ⟨hbounded, ⟨hflushed.holds, hflushed.synced hx.refines.synced, hx.refines.whole⟩, hx.short⟩
    rcases (ports_flush hw x y h).cases with ⟨_, _, hf, -⟩ | ⟨⟨⟩, x'', y', hxs', hys, hported⟩ | ⟨_, _, _, hf, -⟩
    · cases hxs.symm.trans hf
    · cases hxs.symm.trans hxs'
      exact .inr ⟨x', y', hxs, hys, hzs, hported, hwhole, hflushed.header⟩
    · cases hxs.symm.trans hf
  · exact (not_broken IdealOrigin.neverFails (hideal.error hzs)).elim

section
variable {σ : Type} [ByteOrigin σ] {st st' st'' : CoordMapStore 64 N σ} {d : SlotSize}

theorem reopen_error {e : Stop MapError} (h : flush st = .error e st') :
    (Step.reopen d).program st = .error e st' := by
  rw [Step.program, bind_apply, reopen, bind_apply, h]

theorem reopen_ok (h : flush st = .ok ⟨⟩ st')
    (hload : CoordMapStore.load st'.mount.origin d.val = .ok st'') :
    (Step.reopen d).program st = .ok .done st'' := by
  have hreload : reload d st' = .ok ⟨⟩ st'' := by rw [reload, hload]
  rw [Step.program, bind_apply, reopen, bind_apply, h]
  dsimp only
  rw [hreload]
  rfl

end

theorem vectorOn_eq {bits : ℕ} (wide : 32 ≤ bits) {data : Bytes} (h : data.length < 2 ^ 30)
    (spare : Spare) : ∃ o, vectorOn bits data spare = some o ∧ o.data = data := by
  have hhalf : 2 ^ 31 ≤ 2 ^ (bits - 1) := Nat.pow_le_pow_right Nat.two_pos (by omega)
  have hspare := spare.property
  have hroom : data.length + spare < 2 ^ (bits - 1) := by omega
  exact ⟨_, dif_pos hroom, rfl⟩

/-- After a hop the target still follows, and the store without an end as well. -/
structure Stays (z : ℕ → ElementSizes) (x : CoordMapStore 64 N NarrowOrigin) (t : Target N)
    (L : Layout) (hop : Hop N) : Prop where
  reply : (hop.perform z t).1 = (hop.step.onLayout L).1
  ideal : (hop.step.perform (idealOf x)).2 = idealOf (hop.step.perform x).2
  follows : Follows (hop.step.perform x).2 (hop.perform z t).2 (hop.step.onLayout L).2

theorem follows_step (hN : 0 < N) (hN' : N ≤ maxStoreDepth) {z : ℕ → ElementSizes} {t : Target N}
    (h : Follows x t L) (hop : Hop N) (hfit : hop = .call .iter → FitsListing z t) :
    (∃ e x', hop.step.program x = .error e x' ∧ Overran x') ∨ Stays z x t L hop := by
  cases hop with
  | call c =>
    rcases whole_call hN h.whole c with hover | ⟨hreply, hideal, hwhole⟩
    · exact .inl hover
    · apply (port_call t.wide hN h.ported h.whole c fun hc => hfit (congrArg Hop.call hc)).imp_right
      intro hport
      exact ⟨hport.1.symm.trans hreply, hideal, hport.2, hwhole⟩
  | move bits wide d spare =>
    rcases port_flush t.wide h.ported h.whole with ⟨e, x', hxs, hover⟩ |
      ⟨x', y', hxs, hys, hzs, hported, hwhole, hheader⟩
    · exact .inl ⟨e, x', reopen_error hxs, hover⟩
    · have hdata : y'.mount.origin.data = x'.mount.origin.data := hported.mount.origin.2
      obtain ⟨o, hvector, ho⟩ := vectorOn_eq wide hwhole.bounded.length spare
      obtain ⟨x'', y'', hx'', hy'', hz'', hported', hwhole'⟩ :=
        port_load wide hN hN' hwhole hheader d.property.1 ho
      have hstep : (Step.reopen d.size).perform x = (.ok .done, x'') :=
        answer_of_ok (reopen_ok hxs hx'')
      have hideal : (Step.reopen d.size).perform (idealOf x) = (.ok .done, idealOf x'') :=
        answer_of_ok (reopen_ok hzs hz'')
      have hopen : openOn bits wide d spare { t with store := y' } = (.ok .done, ⟨bits, wide, y''⟩) := by
        simp only [openOn, hdata, hvector, hy'']
      have hhop : (Hop.move bits wide d spare).perform z t = (.ok .done, ⟨bits, wide, y''⟩) := by
        simp only [Hop.perform, hys, hopen]
      apply Or.inr
      constructor
      · rw [hhop]
        rfl
      · rw [Hop.step, hstep, hideal]
      · rw [Hop.step, hstep, hhop]
        exact ⟨hported', hwhole'⟩

/-- No call of the run reaches an offset of 2^30 or beyond. -/
def StaysBelow (hops : List (Hop N)) (x : CoordMapStore 64 N NarrowOrigin) : Prop :=
  ∀ ys, ys <+: hops.map Hop.step → (run Step.perform ys x).2.mount.origin.overrun = false

/-- What the run lists fits the vectors of the target where it is listed. -/
def ListingsFit (z : ℕ → ElementSizes) (hops : List (Hop N)) (t : Target N) : Prop :=
  ∀ ys, ys ++ [.call .iter] <+: hops → FitsListing z (run (Hop.perform z) ys t).2

theorem follows_run (hN : 0 < N) (hN' : N ≤ maxStoreDepth) {z : ℕ → ElementSizes} {t : Target N}
    (h : Follows x t L) {hops : List (Hop N)} (hbelow : StaysBelow hops x)
    (hfit : ListingsFit z hops t) :
    (run (Hop.perform z) hops t).1 = (run Step.onLayout (hops.map Hop.step) L).1 ∧
      (run Step.perform (hops.map Hop.step) (idealOf x)).2 =
        idealOf (run Step.perform (hops.map Hop.step) x).2 ∧
      Follows (run Step.perform (hops.map Hop.step) x).2 (run (Hop.perform z) hops t).2
        (run Step.onLayout (hops.map Hop.step) L).2 := by
  induction hops generalizing x t L with
  | nil => exact ⟨rfl, rfl, h⟩
  | cons hop hops ih =>
    have hfirst : hop = .call .iter → FitsListing z t := by
      rintro rfl
      exact hfit [] (List.prefix_append _ _)
    rw [List.map_cons, run_cons, run_cons, run_cons, run_cons]
    rcases follows_step hN hN' h hop hfirst with ⟨e, x', hxs, hover⟩ | hstays
    · have hclean := hbelow [hop.step] (by simp)
      rw [run_cons, Step.perform, answer_of_error hxs] at hclean
      exact absurd hover (Bool.eq_false_iff.mp hclean)
    · have hrest : StaysBelow hops (hop.step.perform x).2 := by
        intro ys hys
        have hbegins := hbelow (hop.step :: ys) (by simpa using hys)
        rwa [run_cons] at hbegins
      have hlists : ListingsFit z hops (hop.perform z t).2 := by
        intro ys hys
        have hbegins := hfit (hop :: ys) (by simpa using hys)
        rwa [run_cons] at hbegins
      obtain ⟨hreplies, hideal, hfollows⟩ := ih hstays.follows hrest hlists
      rw [hstays.reply, hreplies, hstays.ideal]
      exact ⟨rfl, hideal, hfollows⟩

theorem follows_new (hN : 0 < N) (d : ShortSize) {bits : ℕ} (wide : 32 ≤ bits)
    {o : GrowingOrigin bits} (ho : o.data = []) :
    Follows ⟨⟨freshFields N d.val, ⟨[], false⟩⟩, 0, false⟩
      ⟨bits, wide, ⟨⟨freshFields N d.val, o⟩, 0, false⟩⟩ (empty d.val) := by
  obtain ⟨st, hnew, hst, -⟩ := refines_new (N := N) (o := (⟨[]⟩ : IdealOrigin)) rfl hN d.size
  cases (new_eq (w := 64) (⟨[]⟩ : IdealOrigin) d.property.1).symm.trans hnew
  constructor
  · exact ⟨⟨rfl, rfl, Nat.two_pow_pos 30, ho⟩, rfl, rfl⟩
  · exact ⟨⟨rfl, Nat.two_pow_pos 30⟩, hst, d.property.2⟩

/-- A store that is flushed and moved between targets at any points of a run answers as a store on
one 64-bit target and leaves the same image, as long as no call reaches an offset of 2^30 and the
vectors of the listings fit. -/
theorem images_are_portable (hN : 0 < N) (hN' : N ≤ maxStoreDepth) (z : ℕ → ElementSizes)
    (d : ShortSize) {bits : ℕ} (wide : 32 ≤ bits) {o : GrowingOrigin bits} (ho : o.data = []) :
    ∃ (region : CoordMapStore 64 N NarrowOrigin) (ideal : CoordMapStore 64 N IdealOrigin)
      (store : CoordMapStore bits N (GrowingOrigin bits)),
      CoordMapStore.new ⟨[], false⟩ d.val = .ok region ∧ CoordMapStore.new ⟨[]⟩ d.val = .ok ideal ∧
      CoordMapStore.new o d.val = .ok store ∧
      ∀ hops : List (Hop N), StaysBelow hops region → ListingsFit z hops ⟨bits, wide, store⟩ →
        (run (Hop.perform z) hops ⟨bits, wide, store⟩).1 =
            (run Step.perform (hops.map Hop.step) ideal).1 ∧
          (run (Hop.perform z) hops ⟨bits, wide, store⟩).2.store.mount.origin.data =
            (run Step.perform (hops.map Hop.step) ideal).2.mount.origin.data := by
  refine ⟨_, _, _, new_eq _ d.property.1, new_eq _ d.property.1, new_eq _ d.property.1, ?_⟩
  intro hops hbelow hfit
  have hfollows := follows_new hN d wide ho
  obtain ⟨hreplies, hideal, hfinal⟩ := follows_run hN hN' hfollows hbelow hfit
  obtain ⟨hsteps, -⟩ := run_steps IdealOrigin.neverFails hN hN' hfollows.whole.refines
    (hops.map Hop.step)
  constructor
  · exact hreplies.trans hsteps.symm
  · have horigin := congrArg (fun st : CoordMapStore 64 N IdealOrigin => st.mount.origin.data) hideal
    exact hfinal.ported.mount.origin.2.trans horigin.symm

theorem peek_zeros (n i : ℕ) : peek (List.replicate n 0) i = 0 := by
  rw [peek, List.getD_eq_getElem?_getD, List.getElem?_getD_replicate_default_eq]

section
variable {σ : Type} [Origin σ]

/-- A node that is not there has no children. -/
theorem iterNode_fresh {m : Mount N σ} {node : ℕ} (h : Origin.len m.origin ≤ node) (levels depth : ℕ)
    (path : CoordPath N) (out : List (CoordPath N × ℕ)) :
    iterNode pushEntry levels node depth path out m = .ok out m := by
  cases levels with
  | zero => rfl
  | succ levels =>
    have hbitmap : readBitmap node m = .ok (List.replicate bitmapBytes 0) m := by
      change (if node ≥ Origin.len m.origin then _ else _ : BindingProgram N σ Bytes) m = _
      rw [if_pos h]
      rfl
    rw [iterNode, bind_apply, hbitmap]
    dsimp only
    generalize List.finRange nValid = indices
    induction indices with
    | nil => rfl
    | cons index indices ih =>
      rw [List.foldlM_cons, peek_zeros, UInt8.zero_and, if_pos rfl, pure_bind]
      exact ih

theorem entries_fresh {st : CoordMapStore w N σ} (h : Origin.len st.mount.origin ≤ rootOffset) :
    entries st = .ok [] st := by
  have hiter : iter st.mount = .ok [] st.mount := iterNode_fresh h N 0 (CoordPath.zero N) []
  rw [entries, onStrategy, bind_apply, focus, hiter]
  rfl

end

theorem run_iter_fresh {σ : Type} [ByteOrigin σ] {st : CoordMapStore 64 N σ}
    (h : Origin.len st.mount.origin ≤ rootOffset) (ys : List (Step N)) :
    (run Step.perform (.call .iter :: ys) st).2 = (run Step.perform ys st).2 := by
  have hprogram : (Step.call .iter).program st = .ok (.entries []) st := by
    rw [Step.program, StoreCall.program, bind_apply, entries_fresh h]
    rfl
  rw [run_cons, Step.perform, answer_of_ok hprogram]

/-- List a new store of a 32-bit target, put a path and move to a 64-bit target. -/
def firstMove : List (Hop 1) :=
  [.call .iter, .call (.map (.put (CoordPath.zero 1) (Value.byte 7))),
    .move 64 (by decide) ⟨8, by decide⟩ ⟨0, by decide⟩]

def newRegion : CoordMapStore 64 1 NarrowOrigin := ⟨⟨freshFields 1 16, ⟨[], false⟩⟩, 0, false⟩

theorem below_firstMove : StaysBelow firstMove newRegion := by
  have hlist (ys : List (Step 1)) :
      (run Step.perform (.call .iter :: ys) newRegion).2 = (run Step.perform ys newRegion).2 :=
    run_iter_fresh (Nat.zero_le _) ys
  intro ys hys
  simp only [firstMove, List.map_cons, List.map_nil, Hop.step, List.prefix_cons_iff,
    List.prefix_nil] at hys
  obtain rfl | ⟨_, rfl, rfl | ⟨_, rfl, rfl | ⟨_, rfl, rfl⟩⟩⟩ := hys
  · rfl
  · rw [hlist]
    rfl
  · rw [hlist]
    decide +kernel
  · rewrite [hlist]
    -- opening the image reaches no further than the flush
    apply clean_last (by decide) [.call (.map (.put (CoordPath.zero 1) (Value.byte 7)))]
    decide +kernel

/-- Only the new store is listed. -/
theorem listings_firstMove {z : ℕ → ElementSizes} {t : Target 1} (h : FitsListing z t) :
    ListingsFit z firstMove t := by
  intro ys hys
  rcases ys with _ | ⟨y, _ | ⟨y', _ | ⟨y'', ys⟩⟩⟩
  · exact h
  all_goals simp [firstMove] at hys

theorem images_are_portable_move :
    ∃ (ideal : CoordMapStore 64 1 IdealOrigin) (store : CoordMapStore 32 1 (GrowingOrigin 32)),
      CoordMapStore.new ⟨[]⟩ 16 = .ok ideal ∧
      CoordMapStore.new (.withBytes [] (by decide)) 16 = .ok store ∧
      (run (Hop.perform fun _ => ⟨16, 32⟩) firstMove ⟨32, le_rfl, store⟩).1 =
        (run Step.perform (firstMove.map Hop.step) ideal).1 := by
  obtain ⟨region, ideal, store, hregion, hideal, hstore, hall⟩ :=
    images_are_portable Nat.one_pos (by decide) (fun _ => ⟨16, 32⟩) ⟨16, by decide⟩ le_rfl
      (o := .withBytes [] (by decide)) rfl
  have hbelow : StaysBelow firstMove region :=
    (Except.ok.inj ((new_eq _ (by decide)).symm.trans hregion)) ▸ below_firstMove
  have hlen : store.len = 0 := by
    rw [← Except.ok.inj ((new_eq _ (by decide)).symm.trans hstore)]
  have hfit : EntriesFit 32 ⟨16, 32⟩ store.len := by
    rw [hlen]
    exact ⟨by decide, by decide⟩
  exact ⟨ideal, store, hideal, hstore, (hall firstMove hbelow (listings_firstMove hfit)).1⟩

end Chton.MovingStores
