import Chton.StoreLayouts

/-!
# The store operations keep layouts valid

Each step of the store moves one span: a node or a record is cut from the bump area,
a record passes from the free list to a path or back, or a span is lost. Validity
after the step follows from the growth and renaming rules of tilings.
-/

namespace Chton.StoreLayouts.Layout
open ByteRegions Origins TreeStrategyProgram CoordMapProgram IntervalTilings

variable {N : ℕ} {L A : Layout} {q q' : List Coord} {c : Coord} {r a n : ℕ} {v : Bytes}

theorem append_singleton_inj {q q' : List Coord} {c c' : Coord} :
    q ++ [c] = q' ++ [c'] ↔ q = q' ∧ c = c' := by
  constructor
  · intro h
    have := List.append_inj' h rfl
    simpa using this
  · rintro ⟨rfl, rfl⟩
    rfl

theorem ne_append_singleton (q : List Coord) (c : Coord) : q ≠ q ++ [c] := by
  intro h
  simpa using congrArg List.length h

theorem Wired.parent {ptr : List Coord → ℕ} (h : Wired N ptr) (hq : ptr (q ++ [c]) ≠ 0) :
    ptr q ≠ 0 := fun h0 => hq (h.below q c h0)

/-- Linking or unlinking below a linked prefix keeps the tree shape. -/
theorem Wired.update {ptr : List Coord → ℕ} (h : Wired N ptr) (hq : ptr q ≠ 0)
    (hlen : q.length < N) (ha : a = 0 → ∀ c', ptr (q ++ [c] ++ [c']) = 0) :
    Wired N (Function.update ptr (q ++ [c]) a) where
  root := by
    rw [Function.update_of_ne (by simp)]
    exact h.root
  below p c' hp := by
    by_cases h₁ : p ++ [c'] = q ++ [c]
    · obtain ⟨rfl, rfl⟩ := append_singleton_inj.mp h₁
      rw [Function.update_of_ne (ne_append_singleton p c')] at hp
      exact absurd hp hq
    · rw [Function.update_of_ne h₁]
      by_cases h₂ : p = q ++ [c]
      · subst h₂
        rw [Function.update_self] at hp
        exact ha hp c'
      · rw [Function.update_of_ne h₂] at hp
        exact h.below p c' hp
  deep p hp := by
    rw [Function.update_of_ne ?_]
    · exact h.deep p hp
    · rintro rfl
      simp only [List.length_append, List.length_singleton] at hp
      omega

theorem Valid.entry_lower (h : L.Valid N) (hq : q ≠ []) (hp : L.ptr q ≠ 0) :
    rootEnd ≤ L.ptr q := h.tiling.lower (.entry q) ⟨hq, hp⟩

theorem Valid.entry_upper (h : L.Valid N) (hq : q ≠ []) (hp : L.ptr q ≠ 0) :
    L.ptr q + L.spanOf N q ≤ L.bump := h.tiling.upper (.entry q) ⟨hq, hp⟩

theorem Valid.free_lower (h : L.Valid N) (ha : a ∈ L.free) : rootEnd ≤ a :=
  h.tiling.lower (.free a) ha

theorem Valid.free_upper (h : L.Valid N) (ha : a ∈ L.free) : a + L.slot ≤ L.bump :=
  h.tiling.upper (.free a) ha

theorem Valid.bump_ge (h : L.Valid N) : rootEnd ≤ L.bump := h.tiling.le

theorem spanOf_node (h : q.length < N) : L.spanOf N q = nodeSpan := by
  rw [spanOf, if_neg (by omega)]

theorem spanOf_record (h : q.length = N) : L.spanOf N q = L.slot := by
  rw [spanOf, if_pos h]

/-- Every linked span, the root included, ends at or below the bump pointer. -/
theorem Valid.span_le_bump (h : L.Valid N) (hN : 0 < N) (hq : L.ptr q ≠ 0) :
    L.ptr q + L.spanOf N q ≤ L.bump := by
  by_cases h0 : q = []
  · subst h0
    rw [h.root, spanOf_node hN]
    exact h.bump_ge
  · exact h.entry_upper h0 hq

theorem Valid.apart (h : L.Valid N) (hN : 0 < N) (hne : q ≠ q') (hq : L.ptr q ≠ 0)
    (hq' : L.ptr q' ≠ 0) :
    L.ptr q + L.spanOf N q ≤ L.ptr q' ∨ L.ptr q' + L.spanOf N q' ≤ L.ptr q := by
  have hroot : L.ptr [] + L.spanOf N [] = rootEnd := by
    rw [h.root, spanOf_node hN]
  by_cases h0 : q = []
  · subst h0
    have := h.entry_lower (Ne.symm hne) hq'
    omega
  by_cases h0' : q' = []
  · subst h0'
    have := h.entry_lower h0 hq
    omega
  exact h.tiling.disjoint (i := .entry q) (j := .entry q') ⟨h0, hq⟩ ⟨h0', hq'⟩
    (by simpa using hne)

theorem Valid.apart_free (h : L.Valid N) (hN : 0 < N) (hq : L.ptr q ≠ 0) (ha : a ∈ L.free) :
    L.ptr q + L.spanOf N q ≤ a ∨ a + L.slot ≤ L.ptr q := by
  by_cases h0 : q = []
  · subst h0
    have := h.free_lower ha
    rw [h.root, spanOf_node hN]
    exact .inl this
  exact h.tiling.disjoint (i := .entry q) (j := .free a) ⟨h0, hq⟩ ha (by simp)

theorem Valid.apart_free_free (h : L.Valid N) (ha : a ∈ L.free) (hr : r ∈ L.free) (hne : a ≠ r) :
    a + L.slot ≤ r ∨ r + L.slot ≤ a :=
  h.tiling.disjoint (i := .free a) (j := .free r) ha hr (by simpa using hne)

theorem Valid.live_finite (h : L.Valid N) (hN : 0 < N) : (L.live N).Finite := by
  refine Set.Finite.of_finite_image (f := Owner.entry) (h.tiling.finite.subset ?_) ?_
  · rintro _ ⟨q, ⟨hlen, hq⟩, rfl⟩
    exact ⟨by rintro rfl; simp at hlen; omega, hq⟩
  · intro q _ q' _ hqq
    simpa using hqq

/-- Eight bytes are spent on every entry, so the number of entries is a `u64`. -/
theorem Valid.live_mul_le (h : L.Valid N) (hN : 0 < N) : (L.live N).ncard * 8 ≤ L.bump := by
  have hinj : Set.InjOn Owner.entry (L.live N) := fun q _ q' _ hqq => by simpa using hqq
  rw [← hinj.ncard_image]
  refine h.tiling.ncard_mul_le ?_ ?_
  · rintro _ ⟨q, ⟨hlen, hq⟩, rfl⟩
    exact ⟨by rintro rfl; simp at hlen; omega, hq⟩
  · rintro _ ⟨q, ⟨hlen, _⟩, rfl⟩
    change 8 ≤ L.spanOf N q
    rw [spanOf_record hlen]
    exact h.slot_ge

theorem empty_valid (hN : 0 < N) {s : ℕ} (hs : 8 ≤ s) (hs' : s < 2 ^ 64) :
    (empty s).Valid N where
  root := rfl
  below q c _ := by simp [empty]
  deep q hq := by
    have : q ≠ [] := by rintro rfl; simp at hq
    simp [empty, this]
  tiling := by
    have : {o | (empty s).Owns o} = ∅ := by
      ext o
      cases o <;> simp [Owns, empty]
    rw [this]
    exact Tiling.empty ..
  nodup := List.nodup_nil
  bump_lt := show 90837 < 2 ^ 64 by decide
  slot_ge := hs
  slot_lt := hs'
  fits q hq hp := by
    have : q ≠ [] := by rintro rfl; simp at hq; omega
    simp [empty, this] at hp
  sized q hq hp := by simp [empty]

@[simp] theorem link_ptr : (L.link q).ptr = Function.update L.ptr q L.bump := rfl
@[simp] theorem link_val : (L.link q).val = L.val := rfl
@[simp] theorem place_ptr : (L.place q r v).ptr = Function.update L.ptr q r := rfl
@[simp] theorem place_val : (L.place q r v).val = Function.update L.val q v := rfl
@[simp] theorem release_ptr : (L.release q).ptr = Function.update L.ptr q 0 := rfl
@[simp] theorem release_free : (L.release q).free = L.ptr q :: L.free := rfl
@[simp] theorem rewrite_val : (L.rewrite q v).val = Function.update L.val q v := rfl

theorem link_owns (hq : q ≠ []) (hb : L.bump ≠ 0) :
    {o | (L.link q).Owns o} = insert (.entry q) {o | L.Owns o} := by
  ext o
  cases o with
  | entry p =>
    by_cases hp : p = q
    · subst hp
      simp [Owns, hq, hb]
    · simp [Owns, hp]
  | free a => simp [Owns, link]
  | lost a n => simp [Owns, link]

theorem Valid.link (h : L.Valid N) (hq : L.ptr q ≠ 0) (hlen : q.length + 1 < N)
    (habs : L.ptr (q ++ [c]) = 0) (hfit : L.bump + nodeSpan < 2 ^ 64) :
    (L.link (q ++ [c])).Valid N where
  toWired := h.toWired.update hq (by omega) fun h0 => by
    have hb := h.bump_ge
    rw [h0, rootEnd_eq] at hb
    omega
  tiling := by
    have hb : L.bump ≠ 0 := by
      have := h.bump_ge
      rw [rootEnd_eq] at this
      omega
    rw [link_owns (by simp) hb]
    have hsize : (L.link (q ++ [c])).size N (.entry (q ++ [c])) = nodeSpan :=
      spanOf_node (by simpa using hlen)
    have hg := h.tiling.grow (L.link (q ++ [c])).start ((L.link (q ++ [c])).size N)
      (.entry (q ++ [c])) ?_ ?_ ?_ ?_
    · rw [hsize] at hg
      exact hg
    · rintro (p | a | ⟨a, n⟩) ho
      · have hp : p ≠ q ++ [c] := by
          rintro rfl
          exact ho.2 habs
        simp [Layout.start, hp]
      · rfl
      · rfl
    · rintro (p | a | ⟨a, n⟩) _ <;> rfl
    · simp [Layout.start]
    · rw [hsize]
      decide
  nodup := h.nodup
  bump_lt := hfit
  slot_ge := h.slot_ge
  slot_lt := h.slot_lt
  fits p hp hpp := by
    have hne : p ≠ q ++ [c] := by rintro rfl; simp at hp; omega
    rw [link_ptr, Function.update_of_ne hne] at hpp
    exact h.fits p hp hpp
  sized p hp hpp := by
    have hne : p ≠ q ++ [c] := by rintro rfl; simp at hp; omega
    rw [link_ptr, Function.update_of_ne hne] at hpp
    exact h.sized p hp hpp

theorem takeRecord_cons {fs : List ℕ} (hfree : L.free = r :: fs) :
    L.takeRecord = some (r, { L with free := fs }) := by
  rw [takeRecord]
  split
  · simp_all
  · simp_all

theorem takeRecord_nil (hfree : L.free = []) : L.takeRecord =
    if L.bump + L.slot < 2 ^ 64 then some (L.bump, { L with bump := L.bump + L.slot }) else none := by
  rw [takeRecord]
  split
  · simp_all
  · rfl

theorem takeRecord_cases (htake : L.takeRecord = some (r, A)) :
    (∃ fs, L.free = r :: fs ∧ A = { L with free := fs }) ∨
      L.free = [] ∧ L.bump + L.slot < 2 ^ 64 ∧ r = L.bump ∧
        A = { L with bump := L.bump + L.slot } := by
  by_cases hfree : L.free = []
  · rw [takeRecord_nil hfree] at htake
    split at htake
    · simp only [Option.some.injEq, Prod.mk.injEq] at htake
      obtain ⟨rfl, rfl⟩ := htake
      exact .inr ⟨hfree, ‹_›, rfl, rfl⟩
    · cases htake
  · obtain ⟨a, fs, hfree⟩ := List.exists_cons_of_ne_nil hfree
    rw [takeRecord_cons hfree] at htake
    simp only [Option.some.injEq, Prod.mk.injEq] at htake
    obtain ⟨rfl, rfl⟩ := htake
    exact .inl ⟨fs, hfree, rfl⟩

/-- What taking a record leaves alone, and where the record lies. -/
theorem Valid.takeRecord (h : L.Valid N) (htake : L.takeRecord = some (r, A)) :
    A.ptr = L.ptr ∧ A.val = L.val ∧ A.slot = L.slot ∧ A.lost = L.lost ∧ A.bump < 2 ^ 64 ∧
      A.free.Nodup ∧ r ∉ A.free ∧ (∀ a ∈ A.free, a ∈ L.free) ∧ rootEnd ≤ r ∧
      r + L.slot ≤ A.bump := by
  rcases takeRecord_cases htake with ⟨fs, hfree, rfl⟩ | ⟨hfree, hfit, rfl, rfl⟩
  · have hmem : r ∈ L.free := by simp [hfree]
    have hnd := h.nodup
    rw [hfree] at hnd
    obtain ⟨hr, hnd⟩ := List.nodup_cons.mp hnd
    exact ⟨rfl, rfl, rfl, rfl, h.bump_lt, hnd, hr, fun a ha => by simp [hfree, ha],
      h.free_lower hmem, h.free_upper hmem⟩
  · refine ⟨rfl, rfl, rfl, rfl, hfit, h.nodup, ?_, fun a ha => ha, h.bump_ge, le_rfl⟩
    simp [hfree]

/-- The span of a taken record goes to an owner that owned nothing before. -/
theorem Valid.takeRecord_tiling (h : L.Valid N) (htake : L.takeRecord = some (r, A))
    {B : Layout} {o : Owner} (hbump : B.bump = A.bump)
    (hown : ∀ p, B.Owns p ↔ p = o ∨ A.Owns p)
    (hstart : ∀ p, A.Owns p → B.start p = A.start p) (hsize : ∀ p, B.size N p = A.size N p)
    (hr : B.start o = r) (hn : A.size N o = A.slot) :
    Tiling {p | B.Owns p} B.start (B.size N) rootEnd B.bump := by
  have hslot8 := h.slot_ge
  rcases takeRecord_cases htake with ⟨fs, hfree, rfl⟩ | ⟨hfree, hfit, rfl, rfl⟩
  · have hnd := h.nodup
    rw [hfree] at hnd
    have hA : ∀ p, L.Owns p ↔ p = .free r ∨ ({ L with free := fs } : Layout).Owns p := by
      intro p
      cases p <;> simp [Owns, hfree]
    have hA' : ¬({ L with free := fs } : Layout).Owns (.free r) := (List.nodup_cons.mp hnd).1
    rw [hbump]
    refine h.tiling.rename (fun p => if p = .free r then o else p) ?_ ?_ ?_ ?_
    · intro p hp
      by_cases hpf : p = .free r
      · simp [hpf, hown]
      · have := ((hA p).mp hp).resolve_left hpf
        simp [hpf, hown, this]
    · intro p hp
      rcases (hown p).mp hp with rfl | hp
      · exact ⟨.free r, (hA _).mpr (.inl rfl), by simp⟩
      · refine ⟨p, (hA p).mpr (.inr hp), ?_⟩
        have : p ≠ .free r := by
          rintro rfl
          exact hA' hp
        simp [this]
    · intro p hp
      by_cases hpf : p = .free r
      · subst hpf
        rw [if_pos rfl, hr]
        rfl
      · rw [if_neg hpf, hstart p (((hA p).mp hp).resolve_left hpf)]
        cases p <;> rfl
    · intro p hp
      by_cases hpf : p = .free r
      · subst hpf
        rw [if_pos rfl, hsize, hn]
        rfl
      · rw [if_neg hpf, hsize]
        cases p <;> rfl
  · have hset : {p | B.Owns p} = insert o {p | L.Owns p} := by
      ext p
      rw [Set.mem_ofPred_eq, hown p]
      cases p <;> rfl
    have hsame : ∀ p, ({ L with bump := L.bump + L.slot } : Layout).size N p = L.size N p := by
      intro p
      cases p <;> rfl
    have hsz : B.size N o = L.slot := by rw [hsize, hn]
    have hg := h.tiling.grow B.start (B.size N) o
      (fun p hp => ?_) (fun p _ => (hsize p).trans (hsame p)) hr (hsz ▸ by omega)
    · rw [hset, hbump]
      rw [hsz] at hg
      exact hg
    · rw [hstart p (by cases p <;> exact hp)]
      cases p <;> rfl

theorem Valid.place (h : L.Valid N) (htake : L.takeRecord = some (r, A)) (hq : L.ptr q ≠ 0)
    (hlen : q.length + 1 = N) (habs : L.ptr (q ++ [c]) = 0)
    (hfit : v.length + 8 ≤ L.slot) (hsized : v.length < 2 ^ 63) :
    (A.place (q ++ [c]) r v).Valid N := by
  obtain ⟨hptr, hval, hslot, hlost, hbump, hnd, hr, hfree, hlo, hhi⟩ := h.takeRecord htake
  have hr0 : r ≠ 0 := by
    rw [rootEnd_eq] at hlo
    omega
  refine ⟨?_, ?_, hnd, hbump, hslot ▸ h.slot_ge, hslot ▸ h.slot_lt, ?_, ?_⟩
  · rw [place_ptr, hptr]
    exact h.toWired.update hq (by omega) fun h0 => absurd h0 hr0
  · refine h.takeRecord_tiling htake (o := .entry (q ++ [c])) rfl ?_ ?_ ?_ ?_ ?_
    · rintro (p | a | ⟨a, n⟩)
      · by_cases hp : p = q ++ [c]
        · subst hp
          simp [Owns, hr0]
        · simp [Owns, hp]
      · simp [Owns, Layout.place]
      · simp [Owns, Layout.place]
    · rintro (p | a | ⟨a, n⟩) ho
      · have hp : p ≠ q ++ [c] := by
          rintro rfl
          exact ho.2 (hptr ▸ habs)
        simp [Layout.start, hp]
      · rfl
      · rfl
    · rintro (p | a | ⟨a, n⟩) <;> rfl
    · simp [Layout.start]
    · exact spanOf_record (by simpa using hlen)
  · intro p hp hpp
    by_cases hpq : p = q ++ [c]
    · subst hpq
      rw [place_val, Function.update_self]
      exact hslot ▸ hfit
    · rw [place_ptr, Function.update_of_ne hpq, hptr] at hpp
      rw [place_val, Function.update_of_ne hpq, hval]
      exact hslot ▸ h.fits p hp hpp
  · intro p hp hpp
    by_cases hpq : p = q ++ [c]
    · subst hpq
      rw [place_val, Function.update_self]
      exact hsized
    · rw [place_ptr, Function.update_of_ne hpq, hptr] at hpp
      rw [place_val, Function.update_of_ne hpq, hval]
      exact h.sized p hp hpp

/-- A record that was taken but could not be linked is lost; nothing else changes. -/
theorem Valid.loseRecord (h : L.Valid N) (htake : L.takeRecord = some (r, A)) :
    (A.lose r L.slot).Valid N := by
  obtain ⟨hptr, hval, hslot, hlost, hbump, hnd, hr, hfree, hlo, hhi⟩ := h.takeRecord htake
  refine ⟨hptr ▸ h.toWired, ?_, hnd, hbump, hslot ▸ h.slot_ge, hslot ▸ h.slot_lt, ?_, ?_⟩
  · refine h.takeRecord_tiling htake (o := .lost r L.slot) rfl ?_ ?_ ?_ rfl hslot.symm
    · rintro (p | a | ⟨a, n⟩) <;> simp [Owns, lose]
    · rintro (p | a | ⟨a, n⟩) _ <;> rfl
    · rintro (p | a | ⟨a, n⟩) <;> rfl
  · intro p hp hpp
    change (A.val p).length + 8 ≤ A.slot
    rw [hval, hslot]
    exact h.fits p hp (hptr ▸ hpp)
  · intro p hp hpp
    change (A.val p).length < 2 ^ 63
    rw [hval]
    exact h.sized p hp (hptr ▸ hpp)

theorem Valid.loseNode (h : L.Valid N) (hfit : L.bump + nodeSpan < 2 ^ 64) :
    L.loseNode.Valid N where
  toWired := h.toWired
  tiling := by
    have hset : {o | L.loseNode.Owns o} = insert (.lost L.bump nodeSpan) {o | L.Owns o} := by
      ext o
      cases o <;> simp [Owns, Layout.loseNode, lose]
    rw [hset]
    refine h.tiling.grow L.loseNode.start (L.loseNode.size N) (.lost L.bump nodeSpan) ?_ ?_ rfl
      (Nat.zero_lt_succ _)
    · rintro (p | a | ⟨a, n⟩) _ <;> rfl
    · rintro (p | a | ⟨a, n⟩) _ <;> rfl
  nodup := h.nodup
  bump_lt := hfit
  slot_ge := h.slot_ge
  slot_lt := h.slot_lt
  fits := h.fits
  sized := h.sized

theorem Valid.rewrite (h : L.Valid N) (hfit : v.length + 8 ≤ L.slot)
    (hsized : v.length < 2 ^ 63) : (L.rewrite q v).Valid N where
  toWired := h.toWired
  tiling := h.tiling
  nodup := h.nodup
  bump_lt := h.bump_lt
  slot_ge := h.slot_ge
  slot_lt := h.slot_lt
  fits p hp hpp := by
    by_cases hpq : p = q
    · subst hpq
      rwa [rewrite_val, Function.update_self]
    · rw [rewrite_val, Function.update_of_ne hpq]
      exact h.fits p hp hpp
  sized p hp hpp := by
    by_cases hpq : p = q
    · subst hpq
      rwa [rewrite_val, Function.update_self]
    · rw [rewrite_val, Function.update_of_ne hpq]
      exact h.sized p hp hpp

theorem Valid.release (h : L.Valid N) (hN : 0 < N) (hlen : (q ++ [c]).length = N)
    (hq : L.ptr (q ++ [c]) ≠ 0) : (L.release (q ++ [c])).Valid N where
  toWired := h.toWired.update (h.toWired.parent hq) (by simp at hlen; omega)
    fun _ c' => h.deep _ (by simp at hlen ⊢; omega)
  tiling := by
    refine h.tiling.rename (fun o => if o = .entry (q ++ [c]) then .free (L.ptr (q ++ [c])) else o)
      ?_ ?_ ?_ ?_
    · rintro (p | a | ⟨a, n⟩) ho
      · by_cases hp : p = q ++ [c]
        · subst hp
          simp [Owns]
        · simpa [Owns, hp] using ho
      · simpa [Owns] using Or.inr ho
      · exact ho
    · rintro (p | a | ⟨a, n⟩) ho
      · have hp : p ≠ q ++ [c] := by
          rintro rfl
          exact ho.2 (by simp)
        refine ⟨.entry p, ?_, by simp [hp]⟩
        simpa [Owns, hp] using ho
      · rcases List.mem_cons.mp ho with rfl | ho
        · exact ⟨.entry (q ++ [c]), ⟨by simp, hq⟩, by simp⟩
        · exact ⟨.free a, ho, by simp⟩
      · exact ⟨.lost a n, ho, by simp⟩
    · rintro (p | a | ⟨a, n⟩) ho
      · by_cases hp : p = q ++ [c]
        · subst hp
          simp [Layout.start]
        · simp [Layout.start, hp]
      · rfl
      · rfl
    · rintro (p | a | ⟨a, n⟩) ho
      · by_cases hp : p = q ++ [c]
        · subst hp
          rw [if_pos rfl]
          exact (spanOf_record (L := L) hlen).symm
        · simp only [Owner.entry.injEq, hp, if_false]
          rfl
      · rfl
      · rfl
  nodup := by
    refine List.nodup_cons.mpr ⟨fun hmem => ?_, h.nodup⟩
    have hslot := h.slot_ge
    have := h.apart_free hN hq hmem
    rw [spanOf_record hlen] at this
    omega
  bump_lt := h.bump_lt
  slot_ge := h.slot_ge
  slot_lt := h.slot_lt
  fits p hp hpp := by
    have hne : p ≠ q ++ [c] := by rintro rfl; simp at hpp
    rw [release_ptr, Function.update_of_ne hne] at hpp
    exact h.fits p hp hpp
  sized p hp hpp := by
    have hne : p ≠ q ++ [c] := by rintro rfl; simp at hpp
    rw [release_ptr, Function.update_of_ne hne] at hpp
    exact h.sized p hp hpp

end Chton.StoreLayouts.Layout
