import Chton.DurableStates
import Chton.SharedFiles

/-!
# What a crash leaves of the channels

A crash takes the caches of the channels and leaves their media. Wherever the threads of the
process stood, the medium of a channel then holds the files that the first sections on it had
left, and the sections of every batch that returned are among them.
-/

namespace Chton.CrashedChannels
open OutcomePrograms CallRuns ByteRegions Origins TreeStrategyProgram CoordMapProgram
open StoreLayouts StoreLayouts.Layout LayoutContents StoreRuns SoundStores DurableStates
open TextBytes MapUpdates KeyedMaps MapServices FileNames FileStores FileBatches SharedCells SharedFiles

variable {N : ℕ} {byteCoord : UInt8 → Coord} {slot : ℕ} {st st' old : CachedStore N} {files : Files}

theorem answer_onMap_snd {α β : Type} {x : MapProgram 64 N CachedOrigin α}
    {g : α → IoProgram N CachedOrigin β} (hg : ∀ a s, (answer (g a) s).2 = s) (f : α → Answer N) :
    (answer (onMap x >>= g) st).2 = (answer (x >>= fun a => pure (f a)) st).2 := by
  rcases hx : x st with ⟨a, s⟩ | ⟨e, s⟩
  · have hleft : answer (onMap x) st = (.ok a, s) := by simp [answer, onMap, focus, hx]
    have hright : answer x st = (.ok a, s) := answer_of_ok hx
    rw [answer_bind hleft, answer_bind hright, hg]
    rfl
  · have hleft : answer (onMap x) st = (.error (e.map .map), s) := by
      simp [answer, onMap, focus, hx]
    have hright : answer x st = (.error e, s) := answer_of_error hx
    rw [answer_bind_error hleft, answer_bind_error hright]

/-- A call on files makes at most one call of the map, and never clears or flushes it. -/
theorem file_call (c : FileCall) (st : CachedStore N) : (c.perform byteCoord st).2 = st ∨
    ∃ c' : StoreCall N, c' ≠ .map .clear ∧ c' ≠ .flush ∧
      (c.perform byteCoord st).2 = (c'.perform st).2 := by
  rw [FileCall.perform]
  cases c with
  | list pre =>
    refine .inr ⟨.iter, by simp, by simp, ?_⟩
    rw [FileCall.program, FileStores.list, bind_assoc]
    exact answer_onMap_snd (fun _ _ => rfl) .entries
  | read path =>
    rw [FileCall.program, FileStores.read]
    cases keyOf N path with
    | error e => exact .inl rfl
    | ok key =>
      refine .inr ⟨.map (.get (toCoordPath byteCoord key)), by simp, by simp, ?_⟩
      rw [onResult, pure_bind, bind_assoc]
      refine answer_onMap_snd (fun v s => ?_) .value
      cases v with
      | none => rfl
      | some v => cases hv : decodeValue v <;> simp [hv, onResult] <;> rfl
  | write path data =>
    rw [FileCall.program, FileStores.write]
    cases keyOf N path with
    | error e => exact .inl rfl
    | ok key =>
      rw [onResult, pure_bind, withCapacity_bytes]
      by_cases hcap : 4 + (asBytes path).length + data.val.length < 2 ^ 63
      · have hvalue := (length_encodeValue path data.val).trans_lt hcap
        refine .inr ⟨.map (.put (toCoordPath byteCoord key) ⟨_, hvalue⟩), by simp, by simp, ?_⟩
        rw [if_pos hcap, pure_bind, bind_assoc]
        exact answer_onMap_snd (fun _ _ => rfl) .value
      · rw [if_neg hcap]
        exact .inl rfl
  | delete path =>
    rw [FileCall.program, FileStores.delete]
    cases keyOf N path with
    | error e => exact .inl rfl
    | ok key =>
      refine .inr ⟨.map (.remove (toCoordPath byteCoord key)), by simp, by simp, ?_⟩
      rw [onResult, pure_bind, bind_assoc]
      exact answer_onMap_snd (fun _ _ => rfl) .value

/-- A call that leaves the store clean has found it clean and has changed nothing. -/
theorem clean_call (h : Sound st) {c : StoreCall N} (hclear : c ≠ .map .clear) (hflush : c ≠ .flush)
    (hdirty : (c.perform st).2.dirty = false) :
    st.dirty = false ∧ view (c.perform st).2 = view st ∧ (c.perform st).2.len = st.len := by
  rcases h.quiet CachedOrigin.neverFails hclear hflush with hd | hsame | ⟨-, hd, hlen, hview⟩
  · exact nomatch hdirty.symm.trans hd
  · exact ⟨hsame.dirty ▸ hdirty, h.view_congr CachedOrigin.neverFails hsame, hsame.len⟩
  · exact ⟨hd ▸ hdirty, hview, hlen⟩

theorem file_quiet (h : Sound st) (c : FileCall) :
    Sound (c.perform byteCoord st).2 ∧ medium (c.perform byteCoord st).2 = medium st ∧
      ((c.perform byteCoord st).2.dirty = false → st.dirty = false ∧
        view (c.perform byteCoord st).2 = view st ∧ (c.perform byteCoord st).2.len = st.len) := by
  rcases file_call c st with hsame | ⟨c', hclear, hflush, hcall⟩
  · rw [hsame]
    exact ⟨h, rfl, fun hdirty => ⟨hdirty, rfl, rfl⟩⟩
  · rw [hcall]
    exact ⟨h.perform CachedOrigin.neverFails c', medium_perform hflush st, clean_call h hclear hflush⟩

theorem keeps_of_view (hN : 0 < N) (hold : Sound old) (hview : view old = view st)
    (h : Keeps byteCoord slot st files) : ∃ slot, Keeps byteCoord slot old files := by
  obtain ⟨f, ⟨L, hL, rfl, rfl⟩, hfiles⟩ := h
  cases N with
  | zero => cases hN
  | succ n =>
    obtain ⟨L', hL'⟩ := hold
    have hsame (p : CoordPath (n + 1)) : L'.contents p = L.contents p := by
      have hp := congrFun hview p
      rw [view_of_holds CachedOrigin.neverFails hN hL'.holds,
        view_of_holds CachedOrigin.neverFails hN hL.holds] at hp
      exact Answer.value.inj (Except.ok.inj hp)
    exact ⟨L'.slot, _, ⟨L', hL', rfl, funext hsame⟩, hfiles⟩

/-- A channel as a process finds it: its medium shows what it keeps, and nothing is ahead of it. -/
structure AtRest (byteCoord : UInt8 → Coord) (st : CachedStore N) (files : Files) : Prop where
  keeps : ∃ slot, Keeps byteCoord slot st files
  backed : Backed st
  clean : st.dirty = false
  synced : cache st = medium st

theorem atRest_new (hN : 0 < N) {d : SlotSize}
    (hnew : CoordMapStore.new ⟨[], []⟩ d.val = .ok st) : AtRest byteCoord st fun _ => none := by
  obtain ⟨st₁, hnew₁, hst₁⟩ := backs_new (N := N) (o := (⟨[], []⟩ : CachedOrigin)) hN rfl d
  cases hnew.symm.trans hnew₁
  obtain ⟨st₂, hnew₂, -, -, horigin⟩ := sound_new (N := N) (o := (⟨[], []⟩ : CachedOrigin)) rfl d
  cases hnew.symm.trans hnew₂
  constructor
  · exact ⟨_, _, hst₁, encodes_none⟩
  · exact backed_new hnew
  · cases hnew.symm.trans (new_spec _ d.property.1)
    rfl
  · rw [cache, medium, horigin]

/-- The medium of a store with a backup is loaded as the backup. -/
theorem atRest_of_backup (hN : 0 < N) (hN' : N ≤ maxStoreDepth) (h : Backup st old)
    (hfiles : Keeps byteCoord slot old files) (d : SlotSize) : ∃ st' : CachedStore N,
      CoordMapStore.load ⟨medium st, medium st⟩ d.val = .ok st' ∧ AtRest byteCoord st' files := by
  obtain ⟨st', hst'⟩ := h.reopen hN' (o := ⟨medium st, medium st⟩) rfl d
  have hmedium := medium_load hst'.load
  refine ⟨st', hst'.load, ?_⟩
  constructor
  · exact keeps_of_view hN hst'.sound hst'.view hfiles
  · exact ⟨hst'.sound, old, h.congr hmedium, fun _ => ⟨hst'.view.symm, hst'.len.symm⟩⟩
  · exact hst'.dirty
  · exact hst'.image.trans hmedium.symm

/-- A section after which nothing is ahead of the medium. -/
inductive Settled : Section × SectionReply → Prop
  | clean : Settled (.isBuffered, .buffered false)
  | flushed : Settled (.flush, .flushed (.ok ()))

/-- All settled sections of a history are among its first `n`. -/
def Covers (n : ℕ) (xs : History) : Prop :=
  ∀ ys x zs, xs = ys ++ x :: zs → Settled x → ys.length < n

/-- The medium holds the files of a beginning of the history that covers it. -/
structure Trails (byteCoord : UInt8 → Coord) (files : Files) (xs : History) (st : CachedStore N) :
    Prop where
  keeps : ∃ slot, Keeps byteCoord slot st (filesAfter files xs)
  sound : Sound st
  backup : ∃ old n slot, Backup st old ∧ n ≤ xs.length ∧ Covers n xs ∧
    Keeps byteCoord slot old (filesAfter files (xs.take n)) ∧
    (st.dirty = false → view old = view st ∧ old.len = st.len)

theorem covers_append {n : ℕ} {xs : History} {x : Section × SectionReply} (h : Covers n xs)
    (hx : Settled x → xs.length < n) : Covers n (xs ++ [x]) := by
  intro ys y zs hsplit hy
  rcases List.append_eq_append_iff.mp hsplit with ⟨ws, rfl, hws⟩ | ⟨ws, rfl, hws⟩
  · cases ws with
    | nil =>
      cases hws
      simpa using hx hy
    | cons w ws => simp at hws
  · cases ws with
    | nil =>
      cases hws
      simpa using hx hy
    | cons w ws =>
      cases hws
      exact h ys y ws rfl hy

/-- Unless the section settles the store, the medium still holds the files it held. -/
theorem Trails.unsettled {xs : History} {x : Section × SectionReply} (h : Trails byteCoord files xs st)
    (hkeeps : ∃ slot, Keeps byteCoord slot st' (filesAfter files (xs ++ [x]))) (hsound : Sound st')
    (hmedium : medium st' = medium st) (hx : ¬ Settled x)
    (hdirty : st'.dirty = false → st.dirty = false ∧ view st' = view st ∧ st'.len = st.len) :
    Trails byteCoord files (xs ++ [x]) st' := by
  obtain ⟨old, n, slot, hold, hn, hcovers, hfiles, hclean⟩ := h.backup
  refine ⟨hkeeps, hsound, old, n, slot, hold.congr hmedium, ?_, ?_, ?_, ?_⟩
  · simp
    omega
  · exact covers_append hcovers fun hsettled => absurd hsettled hx
  · rwa [List.take_append_of_le_length hn]
  · intro hst'
    obtain ⟨hst, hview, hlen⟩ := hdirty hst'
    rw [hview, hlen]
    exact hclean hst

theorem Trails.backed {xs : History} (h : Trails byteCoord files xs st) : Backed st := by
  obtain ⟨old, n, slot, hold, -, -, -, hclean⟩ := h.backup
  exact ⟨h.sound, old, hold, hclean⟩

/-- While nothing is ahead of the medium it holds all files. -/
theorem Trails.settled (hN : 0 < N) {xs : History}
    (hkeeps : Keeps byteCoord slot st (filesAfter files xs)) (h : Backed st)
    (hdirty : st.dirty = false) : Trails byteCoord files xs st := by
  obtain ⟨hsound, old, hold, hclean⟩ := h
  obtain ⟨hview, hlen⟩ := hclean hdirty
  obtain ⟨slot', hfiles⟩ := keeps_of_view hN hold.sound hview hkeeps
  refine ⟨⟨slot, hkeeps⟩, hsound, old, xs.length, slot', hold, le_rfl, ?_, ?_, hclean⟩
  · intro ys y zs hsplit _
    simp [hsplit]
  · rwa [List.take_length]

theorem section_trails (hinj : Function.Injective byteCoord) (hN : 0 < N) (hN' : N ≤ maxIoDepth)
    {xs : History} (h : Trails byteCoord files xs st) (c : Section) :
    Trails byteCoord files (xs ++ [(c, (c.perform byteCoord st).1)]) (c.perform byteCoord st).2 := by
  obtain ⟨slot, hkeeps⟩ := h.keeps
  have hnext := section_keeps CachedOrigin.neverFails hinj hN hN' hkeeps c
  rw [← filesAfter_append] at hnext
  cases c with
  | file c =>
    obtain ⟨hsound, hmedium, hdirty⟩ := @file_quiet N byteCoord st h.sound c
    exact h.unsettled ⟨slot, hnext⟩ hsound hmedium (fun hx => by cases hx) hdirty
  | isBuffered =>
    cases hdirty : st.isBuffered with
    | true =>
      have hx : ¬ Settled (.isBuffered, (Section.isBuffered.perform byteCoord st).1) := by
        rw [Section.perform, hdirty]
        intro hx
        cases hx
      exact h.unsettled ⟨slot, hnext⟩ h.sound rfl hx fun hst => ⟨hst, rfl, rfl⟩
    | false => exact Trails.settled hN hnext h.backed hdirty
  | flush =>
    have hst : (Section.flush.perform byteCoord st).2 = (StoreCall.flush.perform st).2 :=
      (congrArg (fun x => (answer x st).2) (bind_pure _).symm).trans
        (answer_onMap_snd (fun _ _ => rfl) fun _ => .done)
    obtain ⟨st', hflush, -, -, -, hdirty⟩ := h.sound.flush CachedOrigin.neverFails
    rw [hst] at hnext ⊢
    refine Trails.settled hN hnext (backed_flush h.backed) ?_
    rw [hflush]
    exact hdirty

theorem AtRest.trails (hN : 0 < N) (h : AtRest byteCoord st files) : Trails byteCoord files [] st := by
  obtain ⟨slot, hkeeps⟩ := h.keeps
  exact Trails.settled hN hkeeps h.backed h.clean

theorem replay_trails (hinj : Function.Injective byteCoord) (hN : 0 < N) (hN' : N ≤ maxIoDepth)
    (h : AtRest byteCoord st files) {xs : History} (hxs : Replays (Section.perform byteCoord) st xs) :
    Trails byteCoord files xs (replay (Section.perform byteCoord) st xs) :=
  hxs.induct (h.trails hN) fun _ c _ hst => section_trails hinj hN hN' hst c

variable {T K : Type} [DecidableEq T] [DecidableEq K]

def own (t : T) (xs : List (T × Section × SectionReply)) : History :=
  xs.filterMap fun x => if x.1 = t then some x.2 else none

inductive Started (byteCoord : UInt8 → Coord) : (K → CachedStore N) → Prop
  | new {data : K → CachedStore N}
    (hnew : ∀ k, ∃ d : SlotSize, CoordMapStore.new ⟨[], []⟩ d.val = .ok (data k)) :
    Started byteCoord data
  | crash {data data' : K → CachedStore N} {es : List (Event T (K × Section) SectionReply)}
    {s : Shared T K (CachedStore N) (K × Section) SectionReply} (hdata : Started byteCoord data)
    (hs : SharedCells.Reached (channels byteCoord K) data es s)
    (hload : ∀ k, ∃ d : SlotSize,
      CoordMapStore.load ⟨medium (s.data k), medium (s.data k)⟩ d.val = .ok (data' k)) :
    Started byteCoord data'

/-- What is found after a crash where there were `files` at the start of the process. -/
structure Survives (byteCoord : UInt8 → Coord) (files : Files)
    (xs : List (T × Section × SectionReply)) (st : CachedStore N) (n : ℕ) : Prop where
  /-- The medium is loaded with the files that the first `n` sections left. -/
  load : ∀ d : SlotSize, ∃ (st' : CachedStore N) (slot : ℕ),
    CoordMapStore.load ⟨medium st, medium st⟩ d.val = .ok st' ∧
      FileRun byteCoord slot st' (filesAfter files ((xs.take n).map Prod.snd))
  /-- A batch that returned is among them, with all that its thread did before. -/
  batch : ∀ t before ops bs after, Batch ops bs → own t xs = before ++ bs ++ after →
    before ++ bs <+: own t (xs.take n)

/-- The last section of a batch settles. -/
theorem batch_settled {ops : List WriteOp} {bs : History} (h : Batch ops bs) :
    ∃ init x, bs = init ++ [x] ∧ Settled x := by
  obtain ⟨tail, htail, rfl⟩ := h
  cases htail with
  | clean => exact ⟨_, _, rfl, .clean⟩
  | flushed =>
    exact ⟨applied ops ++ [(.isBuffered, .buffered true)], _, by simp, .flushed⟩

theorem own_prefix {n : ℕ} {xs : List (T × Section × SectionReply)} (h : Covers n (xs.map Prod.snd))
    {t : T} {ys zs : History} {y : Section × SectionReply} (hown : own t xs = ys ++ [y] ++ zs)
    (hy : Settled y) : ys ++ [y] <+: own t (xs.take n) := by
  rw [own, List.append_assoc, List.filterMap_eq_append_iff] at hown
  obtain ⟨xs₁, xs₂, rfl, hxs₁, hxs₂⟩ := hown
  obtain ⟨xs₃, x, xs₄, rfl, hnone, hx, -⟩ := List.filterMap_eq_cons_iff.mp hxs₂
  have hy' : x.2 = y := by
    split at hx
    · exact Option.some.inj hx
    · cases hx
  have hn := h ((xs₁ ++ xs₃).map Prod.snd) y (xs₄.map Prod.snd) (by simp [hy']) hy
  have htake : (xs₁ ++ (xs₃ ++ x :: xs₄)).take n =
      (xs₁ ++ xs₃ ++ [x]) ++ xs₄.take (n - (xs₁ ++ xs₃ ++ [x]).length) := by
    have hsplit : xs₁ ++ (xs₃ ++ x :: xs₄) = (xs₁ ++ xs₃ ++ [x]) ++ xs₄ := by simp
    rw [hsplit, List.take_append, List.take_of_length_le]
    simp at hn ⊢
    omega
  have hbegin : own t (xs₁ ++ xs₃ ++ [x]) = ys ++ [y] := by
    rw [own, List.filterMap_append, List.filterMap_append, hxs₁, List.filterMap_eq_nil_iff.mpr hnone]
    simp [hx]
  rw [htake, own, List.filterMap_append, ← own, hbegin]
  exact List.prefix_append _ _

/-- The medium keeps what it holds of the history of a channel. -/
theorem Trails.survives (hinj : Function.Injective byteCoord) (hN : 0 < N) (hN' : N ≤ maxIoDepth)
    {xs : List (T × Section × SectionReply)} (h : Trails byteCoord files (xs.map Prod.snd) st) :
    ∃ n, Survives byteCoord files xs st n ∧ ∀ d : SlotSize, ∀ st' : CachedStore N,
      CoordMapStore.load ⟨medium st, medium st⟩ d.val = .ok st' →
        AtRest byteCoord st' (filesAfter files ((xs.take n).map Prod.snd)) := by
  obtain ⟨old, n, slot, hold, -, hcovers, hfiles, -⟩ := h.backup
  rw [← List.map_take] at hfiles
  have hload := atRest_of_backup hN (hN'.trans (by decide)) hold hfiles
  refine ⟨n, ⟨?_, ?_⟩, ?_⟩
  · intro d
    obtain ⟨st', hst', hrest⟩ := hload d
    obtain ⟨slot', hkeeps⟩ := hrest.keeps
    exact ⟨st', slot', hst', fileRun_of_keeps CachedOrigin.neverFails hinj hN hN' hkeeps⟩
  · intro t before ops bs after hbatch hown
    obtain ⟨init, x, rfl, hx⟩ := batch_settled hbatch
    rw [← List.append_assoc] at hown ⊢
    exact own_prefix hcovers hown hx
  · intro d st' hst'
    obtain ⟨st'', hst'', hrest⟩ := hload d
    cases hst'.symm.trans hst''
    exact hrest

theorem run_trails (hinj : Function.Injective byteCoord) (hN : 0 < N) (hN' : N ≤ maxIoDepth)
    {data : K → CachedStore N} {es : List (Event T (K × Section) SectionReply)}
    {s : Shared T K (CachedStore N) (K × Section) SectionReply}
    (hs : SharedCells.Reached (channels byteCoord K) data es s) {k : K}
    (h : AtRest byteCoord (data k) files) : Trails byteCoord files (historyOf k es) (s.data k) := by
  obtain ⟨hreplies, hstate⟩ := history_replays (sequential_of_reached hs) k
  rw [hstate]
  exact replay_trails hinj hN hN' h hreplies

theorem atRest_of_started (hinj : Function.Injective byteCoord) (hN : 0 < N) (hN' : N ≤ maxIoDepth)
    {data : K → CachedStore N} (h : Started (T := T) byteCoord data) :
    ∀ k, ∃ files, AtRest byteCoord (data k) files := by
  induction h with
  | new hnew =>
    intro k
    obtain ⟨d, hd⟩ := hnew k
    exact ⟨_, atRest_new hN hd⟩
  | crash _ hs hload ih =>
    intro k
    obtain ⟨files, hfiles⟩ := ih k
    obtain ⟨d, hd⟩ := hload k
    obtain ⟨n, -, hrest⟩ := Trails.survives hinj hN hN' (run_trails hinj hN hN' hs hfiles)
    exact ⟨_, hrest d _ hd⟩

/-- However often the process crashes, the batches that returned survive. -/
theorem returned_batches_survive (hinj : Function.Injective byteCoord) (hN : 1 ≤ N)
    (hN' : N ≤ maxIoDepth) {data : K → CachedStore N} (h : Started (T := T) byteCoord data) :
    ∃ files : K → Files, (∀ k, ∃ slot, FileRun byteCoord slot (data k) (files k)) ∧
      ∀ (es : List (Event T (K × Section) SectionReply)) s,
        SharedCells.Reached (channels byteCoord K) data es s →
          ∀ k, ∃ n, Survives byteCoord (files k) (sectionsOf k es) (s.data k) n := by
  choose files hfiles using atRest_of_started hinj hN hN' h
  refine ⟨files, ?_, ?_⟩
  · intro k
    obtain ⟨slot, hkeeps⟩ := (hfiles k).keeps
    exact ⟨slot, fileRun_of_keeps CachedOrigin.neverFails hinj hN hN' hkeeps⟩
  · intro es s hs k
    obtain ⟨n, hn, -⟩ := Trails.survives hinj hN hN' (run_trails hinj hN hN' hs (hfiles k))
    exact ⟨n, hn⟩

/-- Four threads on two new channels of depth 16. -/
theorem returned_batches_survive_new : ∃ data : Bool → CachedStore 16,
    (∀ k, CoordMapStore.new ⟨[], []⟩ 512 = .ok (data k)) ∧
      ∃ files : Bool → Files, (∀ k, ∃ slot, FileRun indexCoord slot (data k) (files k)) ∧
        ∀ (es : List (Event (Fin 4) (Bool × Section) SectionReply)) s,
          SharedCells.Reached (channels indexCoord Bool) data es s →
            ∀ k, ∃ n, Survives indexCoord (files k) (sectionsOf k es) (s.data k) n := by
  obtain ⟨st, hnew, -⟩ :=
    backs_new (N := 16) (o := (⟨[], []⟩ : CachedOrigin)) (by decide) rfl ⟨512, by decide⟩
  refine ⟨fun _ => st, fun _ => hnew, ?_⟩
  exact returned_batches_survive indexCoord_injective (by decide) (by decide)
    (.new fun _ => ⟨_, hnew⟩)

end Chton.CrashedChannels
