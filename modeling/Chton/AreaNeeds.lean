import Chton.LayoutContents

/-!
# The area that a list of paths needs

A layout that was filled by puts alone has a node for every beginning of a path and a
record for every path, and nothing else. Its bump pointer is therefore a function of the
paths, and a put finds room exactly if the area for all paths together ends below `2 ^ 64`.
-/

namespace Chton.AreaNeeds
open ByteRegions Origins TreeStrategyProgram CoordMapProgram StoreLayouts StoreLayouts.Layout
open TreeDescents MapCalls LayoutContents IntervalTilings

variable {N : ℕ} {L G : Layout} {p : CoordPath N} {v : Bytes} {q pre rest : List Coord}
  {ps qs : List (CoordPath N)}

/-- The nodes and records on the way to the paths, each once. -/
def branches (ps : List (CoordPath N)) : Finset (List Coord) :=
  ((ps.flatMap fun p => p.coords.inits).filter (· ≠ [])).toFinset

def areaEnd (N slot : ℕ) (qs : Finset (List Coord)) : ℕ :=
  rootEnd + ∑ q ∈ qs, if q.length = N then slot else nodeSpan

def areaNeed (slot : ℕ) (ps : List (CoordPath N)) : ℕ := areaEnd N slot (branches ps)

theorem mem_branches : q ∈ branches ps ↔ q ≠ [] ∧ ∃ p ∈ ps, q <+: p.coords := by
  rw [branches, List.mem_toFinset, List.mem_filter, List.mem_flatMap]
  simp only [List.mem_inits, decide_eq_true_eq]
  exact and_comm

theorem areaEnd_mono {slot : ℕ} {qs qs' : Finset (List Coord)} (h : qs ⊆ qs') :
    areaEnd N slot qs ≤ areaEnd N slot qs' :=
  Nat.add_le_add_left (Finset.sum_le_sum_of_subset h) _

theorem areaEnd_insert {slot : ℕ} {qs : Finset (List Coord)} (h : q ∉ qs) :
    areaEnd N slot (insert q qs) = areaEnd N slot qs + if q.length = N then slot else nodeSpan := by
  rw [areaEnd, Finset.sum_insert h, areaEnd]
  omega

theorem areaNeed_mono {slot : ℕ} (ps qs : List (CoordPath N)) :
    areaNeed slot ps ≤ areaNeed slot (ps ++ qs) := by
  apply areaEnd_mono
  intro q hq
  obtain ⟨hne, p, hp, hbegins⟩ := mem_branches.mp hq
  exact mem_branches.mpr ⟨hne, p, List.mem_append_left qs hp, hbegins⟩

/-- Without losses the linked nodes and records fill the area together with the free records. -/
theorem bump_eq (h : L.Valid N) (hlost : L.lost = ∅) {qs : Finset (List Coord)}
    (hqs : ∀ q, q ∈ qs ↔ q ≠ [] ∧ L.ptr q ≠ 0) :
    L.bump = areaEnd N L.slot qs + L.free.length * L.slot := by
  have howners : h.tiling.finite.toFinset =
      qs.image Owner.entry ∪ L.free.toFinset.image Owner.free := by
    ext o
    rw [Set.Finite.mem_toFinset]
    cases o with
    | entry q => simpa [Owns] using (hqs q).symm
    | free a => simp [Owns]
    | lost a n => simp [Owns, hlost]
  have hapart : Disjoint (qs.image Owner.entry) (L.free.toFinset.image Owner.free) := by
    rw [Finset.disjoint_left]
    intro o ho ho'
    obtain ⟨q, -, rfl⟩ := Finset.mem_image.mp ho
    obtain ⟨a, -, ha⟩ := Finset.mem_image.mp ho'
    cases ha
  have hsum := h.tiling.sum_size
  rw [howners, Finset.sum_union hapart, Finset.sum_image fun _ _ _ _ => Owner.entry.inj,
    Finset.sum_image fun _ _ _ _ => Owner.free.inj] at hsum
  have hfree : ∑ a ∈ L.free.toFinset, L.size N (.free a) = L.free.length * L.slot := by
    rw [← List.toFinset_card_of_nodup h.nodup, ← Nat.nsmul_eq_mul, ← Finset.sum_const]
    rfl
  have hentries : ∑ q ∈ qs, L.size N (.entry q) =
      ∑ q ∈ qs, if q.length = N then L.slot else nodeSpan := rfl
  rw [areaEnd, ← hentries, ← hfree, Nat.add_assoc]
  exact hsum.symm

theorem areaEnd_eq {slot : ℕ} (qs : Finset (List Coord)) : areaEnd N slot qs =
    rootEnd + (qs.filter (·.length = N)).card * slot +
      (qs.filter (¬ ·.length = N)).card * nodeSpan := by
  rw [areaEnd, Finset.sum_ite, Finset.sum_const, Finset.sum_const, Nat.nsmul_eq_mul,
    Nat.nsmul_eq_mul, ← Nat.add_assoc]

theorem card_records {qs : Finset (List Coord)} {live : Finset (CoordPath N)}
    (h : ∀ p : CoordPath N, p.coords ∈ qs ↔ p ∈ live) :
    (qs.filter (·.length = N)).card = live.card := by
  have himage : qs.filter (·.length = N) = live.image CoordPath.coords := by
    ext q
    rw [Finset.mem_filter, Finset.mem_image]
    constructor
    · intro hq
      exact ⟨⟨q, hq.2⟩, (h ⟨q, hq.2⟩).mp hq.1, rfl⟩
    · intro hq
      obtain ⟨p, hp, rfl⟩ := hq
      exact ⟨(h p).mpr hp, p.length_coords⟩
  rw [himage, Finset.card_image_of_injective _ fun _ _ h => CoordPath.ext h]

/-- The records on the way to the paths are those of the paths. -/
theorem coords_mem_branches (hN : 0 < N) : p.coords ∈ branches ps ↔ p ∈ ps.toFinset := by
  rw [mem_branches, List.mem_toFinset]
  constructor
  · intro hp
    obtain ⟨-, p', hp', hbegins⟩ := hp
    have heq := hbegins.eq_of_length (p.length_coords.trans p'.length_coords.symm)
    rwa [CoordPath.ext heq]
  · exact fun hp => ⟨coords_ne_nil hN p, p, hp, List.prefix_refl _⟩

/-- An area with no other nodes, and no more records, than the paths need. -/
theorem area_le_need (hN : 0 < N) {slot free : ℕ} {qs : Finset (List Coord)}
    (hqs : qs ⊆ branches ps) (hfree : (qs.filter (·.length = N)).card + free ≤ ps.toFinset.card) :
    areaEnd N slot qs + free * slot ≤ areaNeed slot ps := by
  have hnodes : (qs.filter (¬ ·.length = N)).card ≤ ((branches ps).filter (¬ ·.length = N)).card :=
    Finset.card_le_card (Finset.filter_subset_filter _ hqs)
  rw [areaNeed, areaEnd_eq, areaEnd_eq, card_records fun _ => coords_mem_branches hN]
  calc rootEnd + (qs.filter (·.length = N)).card * slot +
        (qs.filter (¬ ·.length = N)).card * nodeSpan + free * slot
      = rootEnd + ((qs.filter (·.length = N)).card + free) * slot +
        (qs.filter (¬ ·.length = N)).card * nodeSpan := by ring
    _ ≤ rootEnd + ps.toFinset.card * slot +
        ((branches ps).filter (¬ ·.length = N)).card * nodeSpan := by gcongr

/-- The layout was filled by puts on these paths. -/
structure Compact (ps : List (CoordPath N)) (L : Layout) : Prop where
  valid : L.Valid N
  free : L.free = []
  lost : L.lost = ∅
  linked : ∀ q, q ≠ [] → (L.ptr q ≠ 0 ↔ ∃ p ∈ ps, q <+: p.coords)

theorem compact_empty (hN : 0 < N) {slot : ℕ} (h8 : 8 ≤ slot) (h64 : slot < 2 ^ 64) :
    Compact ([] : List (CoordPath N)) (empty slot) where
  valid := empty_valid hN h8 h64
  free := rfl
  lost := rfl
  linked q hq := by
    have hptr : (empty slot).ptr q = 0 := if_neg hq
    constructor
    · exact fun h => absurd hptr h
    · rintro ⟨p, hp, -⟩
      exact nomatch hp

theorem Compact.bump_eq (h : Compact ps L) : L.bump = areaNeed L.slot ps := by
  have hlinked : ∀ q, q ∈ branches ps ↔ q ≠ [] ∧ L.ptr q ≠ 0 := by
    intro q
    rw [mem_branches]
    exact and_congr_right fun hq => (h.linked q hq).symm
  rw [AreaNeeds.bump_eq h.valid h.lost hlinked, h.free, List.length_nil, Nat.zero_mul]
  rfl

theorem linked_of_prefix (h : Wired N L.ptr) {q' : List Coord} (hq : L.ptr q ≠ 0)
    (hbegins : q' <+: q) : L.ptr q' ≠ 0 := by
  induction q using List.reverseRecOn with
  | nil =>
    rw [List.prefix_nil.mp hbegins]
    exact hq
  | append_singleton q c ih =>
    cases List.prefix_concat_iff.mp hbegins with
    | inl heq =>
      rw [heq]
      exact hq
    | inr hbegins => exact ih (h.parent hq) hbegins

theorem descend_linked (h : (L.descend pre rest).1.ptr q ≠ 0) :
    L.ptr q ≠ 0 ∨ q <+: pre ++ rest ∧ q ≠ pre ++ rest := by
  induction rest generalizing pre L with
  | nil => exact .inl h
  | cons c rest ih =>
    rw [descend] at h
    split at h
    · exact .inl h
    have hne : rest ≠ [] := ‹rest ≠ []›
    rw [List.append_cons]
    split at h
    · split at h
      · cases ih h with
        | inr hbegins => exact .inr hbegins
        | inl hlink =>
          by_cases hq : q = pre ++ [c]
          · rw [hq]
            refine .inr ⟨List.prefix_append _ _, ?_⟩
            exact fun heq => hne (List.self_eq_append_right.mp heq)
          · rw [link_ptr, Function.update_of_ne hq] at hlink
            exact .inl hlink
      · exact .inl h
    · exact ih h

/-- Where a descent stops there is a missing node that does not fit. -/
theorem descend_missing (h : (L.descend pre rest).2 = false) :
    ∃ q, q <+: pre ++ rest ∧ q ≠ pre ++ rest ∧ q ≠ [] ∧ (L.descend pre rest).1.ptr q = 0 ∧
      2 ^ 64 ≤ (L.descend pre rest).1.bump + nodeSpan := by
  induction rest generalizing pre L with
  | nil => cases h
  | cons c rest ih =>
    rw [descend] at h ⊢
    by_cases hrest : rest = []
    · rw [if_pos hrest] at h
      cases h
    rw [List.append_cons]
    by_cases habs : L.ptr (pre ++ [c]) = 0
    · by_cases hfit : L.bump + nodeSpan < 2 ^ 64
      · rw [if_neg hrest, if_pos habs, if_pos hfit] at h ⊢
        exact ih h
      · rw [if_neg hrest, if_pos habs, if_neg hfit]
        refine ⟨pre ++ [c], List.prefix_append _ _, ?_, ?_, habs, Nat.le_of_not_lt hfit⟩
        · exact fun heq => hrest (List.self_eq_append_right.mp heq)
        · exact List.append_ne_nil_of_right_ne_nil pre (List.cons_ne_nil c [])
    · rw [if_neg hrest, if_neg habs] at h ⊢
      exact ih h

/-- The layout after the descent of a put, as far as it came. -/
theorem descend_linked_iff (h : Compact ps L) (hq : q ≠ []) (hqp : q ≠ p.coords)
    (hd : (L.descend [] p.coords).2 = true) :
    (L.descend [] p.coords).1.ptr q ≠ 0 ↔ ∃ p' ∈ ps ++ [p], q <+: p'.coords := by
  obtain ⟨hdesc, hleaf⟩ := descend_path h.valid p
  have hleaf := hleaf hd
  rw [List.nil_append] at hleaf
  constructor
  · intro hlinked
    cases descend_linked hlinked with
    | inl hold =>
      obtain ⟨p', hp', hbegins⟩ := (h.linked q hq).mp hold
      exact ⟨p', List.mem_append_left _ hp', hbegins⟩
    | inr hnew => exact ⟨p, List.mem_append_right _ List.mem_cons_self, hnew.1⟩
  · rintro ⟨p', hp', hbegins⟩
    cases List.mem_append.mp hp' with
    | inl hp' =>
      have hold := (h.linked q hq).mpr ⟨p', hp', hbegins⟩
      rw [hdesc.grows q hold]
      exact hold
    | inr hp' =>
      rw [List.mem_singleton.mp hp'] at hbegins
      apply linked_of_prefix hdesc.valid.toWired hleaf
      have hp : p.coords ≠ [] := by
        intro hnil
        rw [hnil] at hbegins
        exact hq (List.prefix_nil.mp hbegins)
      rw [← List.dropLast_append_getLast hp] at hbegins hqp
      cases List.prefix_concat_iff.mp hbegins with
      | inl heq => exact absurd heq hqp
      | inr hbegins => exact hbegins

/-- A put that goes through needs no more than there is. -/
theorem Compact.stored (h : Compact ps L) (hs : Stored L p v)
    (hvalid : (L.put p v).2.Valid N) :
    Compact (ps ++ [p]) (L.put p v).2 ∧ areaNeed L.slot (ps ++ [p]) < 2 ^ 64 := by
  have hself : ∃ p' ∈ ps ++ [p], p.coords <+: p'.coords :=
    ⟨p, List.mem_append_right _ List.mem_cons_self, List.prefix_refl _⟩
  have hcompact : Compact (ps ++ [p]) (L.put p v).2 := by
    obtain ⟨hdesc, -⟩ := descend_path h.valid p
    have hiff := @descend_linked_iff N L p
    cases hd : L.descend [] p.coords with
    | mk G flag =>
      rw [hd] at hdesc
      simp only [hd] at hiff
      cases flag with
      | false => exact nomatch (congrArg Prod.fst (put_full hs.small hd)).symm.trans hs.reply
      | true =>
        have hput := put_settle hs.small hd
        by_cases hp : G.ptr p.coords = 0
        · cases htake : G.takeRecord with
          | none =>
            rw [settle_full hp htake] at hput
            exact nomatch (congrArg Prod.fst hput).symm.trans hs.reply
          | some rA =>
            obtain ⟨r, A⟩ := rA
            rw [settle_insert hp htake] at hput
            rcases takeRecord_cases htake with ⟨fs, hfree, -⟩ | ⟨-, -, rfl, rfl⟩
            · exact nomatch hfree.symm.trans (hdesc.free.trans h.free)
            · have hbump : G.bump ≠ 0 := by
                have hlo : rootEnd ≤ G.bump := hdesc.valid.bump_ge
                rw [rootEnd_eq] at hlo
                omega
              refine ⟨hvalid, ?_, ?_, ?_⟩ <;> rw [hput]
              · exact hdesc.free.trans h.free
              · exact hdesc.lost.trans h.lost
              · intro q hq
                rw [place_ptr]
                by_cases hqp : q = p.coords
                · rw [hqp, Function.update_self]
                  exact iff_of_true hbump hself
                · rw [Function.update_of_ne hqp]
                  exact hiff h hq hqp rfl
        · rw [settle_overwrite hp] at hput
          refine ⟨hvalid, ?_, ?_, ?_⟩ <;> rw [hput]
          · exact hdesc.free.trans h.free
          · exact hdesc.lost.trans h.lost
          · intro q hq
            by_cases hqp : q = p.coords
            · rw [hqp]
              exact iff_of_true hp hself
            · exact hiff h hq hqp rfl
  have hbump := hcompact.bump_eq
  rw [hs.slot] at hbump
  exact ⟨hcompact, hbump ▸ hvalid.bump_lt⟩

structure Within (ps : List (CoordPath N)) (L : Layout) : Prop where
  valid : L.Valid N
  lost : L.lost = ∅
  linked : ∀ q, q ≠ [] → L.ptr q ≠ 0 → ∃ p ∈ ps, q <+: p.coords
  records : ∃ live : Finset (CoordPath N), (∀ p, p ∈ live ↔ L.contents p ≠ none) ∧
    live.card + L.free.length ≤ ps.toFinset.card

theorem within_empty (hN : 0 < N) {slot : ℕ} (h8 : 8 ≤ slot) (h64 : slot < 2 ^ 64) :
    Within ([] : List (CoordPath N)) (empty slot) where
  valid := empty_valid hN h8 h64
  lost := rfl
  linked q hq hptr := absurd (if_neg hq) hptr
  records := ⟨∅, fun p => by simp [contents_empty hN], Nat.le_refl 0⟩

theorem put_linked (h : (L.put p v).2.ptr q ≠ 0) : L.ptr q ≠ 0 ∨ q <+: p.coords := by
  by_cases hv : v.length > L.slot - lengthBytes
  · rw [put_tooLarge hv] at h
    exact .inl h
  · have hdesc := @descend_linked L q [] p.coords
    cases hd : L.descend [] p.coords with
    | mk G flag =>
      rw [hd] at hdesc
      have hG (hq : G.ptr q ≠ 0) : L.ptr q ≠ 0 ∨ q <+: p.coords := (hdesc hq).imp_right And.left
      cases flag with
      | false =>
        rw [put_full hv hd] at h
        exact hG h
      | true =>
        rw [put_settle hv hd] at h
        by_cases hp : G.ptr p.coords = 0
        · cases htake : G.takeRecord with
          | none =>
            rw [settle_full hp htake] at h
            exact hG h
          | some x =>
            rw [settle_insert hp htake, place_ptr] at h
            by_cases hq : q = p.coords
            · exact .inr (hq ▸ List.prefix_refl _)
            · rw [Function.update_of_ne hq] at h
              apply hG
              rcases takeRecord_cases htake with ⟨fs, -, hA⟩ | ⟨-, -, -, hA⟩ <;> rwa [hA] at h
        · rw [settle_overwrite hp] at h
          exact hG h

theorem Within.linked_put (h : Within ps L) (hq : q ≠ []) (hlinked : (L.put p v).2.ptr q ≠ 0) :
    ∃ p' ∈ ps ++ [p], q <+: p'.coords := by
  rcases put_linked hlinked with hold | hnew
  · obtain ⟨p', hp', hbegins⟩ := h.linked q hq hold
    exact ⟨p', List.mem_append_left _ hp', hbegins⟩
  · exact ⟨p, List.mem_append_right _ List.mem_cons_self, hnew⟩

theorem Within.live_subset (h : Within ps L) (hN : 0 < N) {live : Finset (CoordPath N)}
    (hlive : ∀ p, p ∈ live ↔ L.contents p ≠ none) : live ⊆ ps.toFinset := by
  intro p hp
  have hlinked : L.ptr p.coords ≠ 0 := fun habs => (hlive p).mp hp (contents_absent habs)
  have hne := coords_ne_nil hN p
  exact (coords_mem_branches hN).mp (mem_branches.mpr ⟨hne, h.linked _ hne hlinked⟩)

theorem card_concat_le (ps : List (CoordPath N)) (p : CoordPath N) :
    ps.toFinset.card ≤ (ps ++ [p]).toFinset.card := by
  apply Finset.card_le_card
  rw [List.toFinset_append]
  exact Finset.subset_union_left

theorem Within.mono (h : Within ps L) (hps : ∀ p ∈ ps, p ∈ qs) : Within qs L := by
  obtain ⟨live, hlive, hcard⟩ := h.records
  refine ⟨h.valid, h.lost, ?_, live, hlive, hcard.trans (Finset.card_le_card ?_)⟩
  · intro q hq hptr
    obtain ⟨p, hp, hbegins⟩ := h.linked q hq hptr
    exact ⟨p, hps p hp, hbegins⟩
  · intro p hp
    exact List.mem_toFinset.mpr (hps p (List.mem_toFinset.mp hp))

theorem Within.stored (h : Within ps L) (hN : 0 < N) (hs : Stored L p v)
    (hvalid : (L.put p v).2.Valid N) : Within (ps ++ [p]) (L.put p v).2 := by
  obtain ⟨live, hlive, hcard⟩ := h.records
  have hlive' (p' : CoordPath N) : p' ∈ insert p live ↔ (L.put p v).2.contents p' ≠ none := by
    rw [hs.contents, Finset.mem_insert, hlive]
    by_cases hp : p' = p <;> simp [hp]
  refine ⟨hvalid, hs.lost.trans h.lost, fun q hq hlinked => h.linked_put hq hlinked,
    insert p live, hlive', ?_⟩
  rw [put_free h.valid hs]
  by_cases hp : L.contents p = none
  · have hmem : p ∉ live := fun hp' => (hlive p).mp hp' hp
    rw [if_pos hp, Finset.card_insert_of_notMem hmem]
    cases hfree : L.free with
    | nil =>
      have hsub : insert p live ⊆ (ps ++ [p]).toFinset := by
        rw [List.toFinset_append, Finset.union_comm]
        exact Finset.insert_subset_insert p (h.live_subset hN hlive)
      have hle := Finset.card_le_card hsub
      rwa [Finset.card_insert_of_notMem hmem] at hle
    | cons r fs =>
      rw [hfree, List.length_cons] at hcard
      have hle := card_concat_le ps p
      rw [List.tail_cons]
      omega
  · rw [if_neg hp, Finset.insert_eq_of_mem ((hlive p).mpr hp)]
    exact hcard.trans (card_concat_le ps p)

theorem Within.overflowed (h : Within ps L) (ho : Overflowed L p v)
    (hvalid : (L.put p v).2.Valid N) : Within (ps ++ [p]) (L.put p v).2 := by
  obtain ⟨live, hlive, hcard⟩ := h.records
  refine ⟨hvalid, ho.lost.trans h.lost, fun q hq hlinked => h.linked_put hq hlinked, live, ?_, ?_⟩
  · intro p'
    rw [contents_kept ho.kept]
    exact hlive p'
  · rw [free_of_error h.valid ho.reply]
    exact hcard.trans (card_concat_le ps p)

theorem Within.remove (h : Within ps L) (p : CoordPath N) (hvalid : (L.remove p).2.Valid N) :
    Within ps (L.remove p).2 := by
  obtain ⟨live, hlive, hcard⟩ := h.records
  obtain ⟨-, hcontents, -, hlost⟩ := remove_contents L p
  refine ⟨hvalid, hlost.trans h.lost, ?_, live.erase p, ?_, ?_⟩
  · intro q hq hlinked
    apply h.linked q hq
    intro habs
    rw [Layout.remove] at hlinked
    split at hlinked
    · exact hlinked habs
    · by_cases hqp : q = p.coords <;> simp [hqp] at hlinked
      exact hlinked habs
  · intro p'
    rw [hcontents, Finset.mem_erase, hlive]
    by_cases hp : p' = p <;> simp [hp]
  · by_cases hp : L.ptr p.coords = 0
    · have hmem : p ∉ live := fun hp' => (hlive p).mp hp' (contents_absent hp)
      rw [Layout.remove, if_pos hp, Finset.erase_eq_of_notMem hmem]
      exact hcard
    · have hmem : p ∈ live := (hlive p).mpr fun hnone => hp (contents_eq_none.mp hnone)
      have hpos := Finset.card_pos.mpr ⟨p, hmem⟩
      rw [Layout.remove, if_neg hp, Finset.card_erase_of_mem hmem, release, List.length_cons]
      omega

/-- One more node or record does not fit behind a layout on the way to the paths. -/
theorem Within.need_of_missing (h : Within ps L) (hN : 0 < N) (hq : q <+: p.coords) (hne : q ≠ [])
    (habs : (L.descend [] p.coords).1.ptr q = 0) (hfree : q.length = N → L.free = [])
    (hfull : 2 ^ 64 ≤ (L.descend [] p.coords).1.bump + if q.length = N then L.slot else nodeSpan) :
    2 ^ 64 ≤ areaNeed L.slot (ps ++ [p]) := by
  obtain ⟨hdesc, -⟩ := descend_path h.valid p
  obtain ⟨live, hlive, hcard⟩ := h.records
  generalize hG : (L.descend [] p.coords).1 = G at habs hfull hdesc
  have hmem : ∀ q', q' ∈ (branches (ps ++ [p])).filter (fun q' => G.ptr q' ≠ 0) ↔
      q' ≠ [] ∧ G.ptr q' ≠ 0 := by
    intro q'
    rw [Finset.mem_filter, mem_branches]
    constructor
    · exact fun hq' => ⟨hq'.1.1, hq'.2⟩
    · intro hq'
      refine ⟨⟨hq'.1, ?_⟩, hq'.2⟩
      rw [← hG] at hq'
      cases descend_linked hq'.2 with
      | inl hold =>
        obtain ⟨p', hp', hbegins⟩ := h.linked q' hq'.1 hold
        exact ⟨p', List.mem_append_left _ hp', hbegins⟩
      | inr hnew => exact ⟨p, List.mem_append_right _ List.mem_cons_self, hnew.1⟩
  have hbump := AreaNeeds.bump_eq hdesc.valid (hdesc.lost.trans h.lost) hmem
  rw [hdesc.kept.slot, hdesc.free] at hbump
  have hrecords : (((branches (ps ++ [p])).filter fun q' => G.ptr q' ≠ 0).filter
      (·.length = N)).card = live.card := by
    apply card_records
    intro p'
    rw [hmem, hlive, ← contents_kept hdesc.kept, Ne, Ne, Ne, contents_eq_none]
    exact and_iff_right (coords_ne_nil hN p')
  have hnew : q ∉ (branches (ps ++ [p])).filter (fun q' => G.ptr q' ≠ 0) := by
    intro hq'
    exact ((hmem q).mp hq').2 habs
  have hsub : insert q ((branches (ps ++ [p])).filter fun q' => G.ptr q' ≠ 0) ⊆
      branches (ps ++ [p]) := by
    apply Finset.insert_subset
    · exact mem_branches.mpr ⟨hne, p, List.mem_append_right _ List.mem_cons_self, hq⟩
    · exact Finset.filter_subset _ _
  calc 2 ^ 64 ≤ areaEnd N L.slot (insert q ((branches (ps ++ [p])).filter fun q' => G.ptr q' ≠ 0)) +
          L.free.length * L.slot := by
        rw [areaEnd_insert hnew, Nat.add_right_comm, ← hbump]
        exact hfull
    _ ≤ areaNeed L.slot (ps ++ [p]) := by
        apply area_le_need hN hsub
        by_cases hlen : q.length = N
        · rw [hfree hlen, List.length_nil, Nat.add_zero,
            ← card_records fun _ => coords_mem_branches hN]
          exact Finset.card_le_card (Finset.filter_subset_filter _ hsub)
        · rw [Finset.filter_insert, if_neg hlen, hrecords]
          exact hcard.trans (card_concat_le ps p)

/-- A put that is refused for lack of room needs more than there is. -/
theorem Within.need_of_overflow (h : Within ps L) (hN : 0 < N)
    (hv : ¬ v.length > L.slot - lengthBytes) (ho : Overflowed L p v) :
    2 ^ 64 ≤ areaNeed L.slot (ps ++ [p]) := by
  cases hd : L.descend [] p.coords with
  | mk G flag =>
    have hG : (L.descend [] p.coords).1 = G := congrArg Prod.fst hd
    cases flag with
    | false =>
      obtain ⟨q, hq, hqp, hne, habs, hfull⟩ := descend_missing (congrArg Prod.snd hd)
      have hlen : q.length ≠ N := by
        intro hlen
        exact hqp (hq.eq_of_length (hlen.trans p.length_coords.symm))
      apply h.need_of_missing hN hq hne habs fun heq => absurd heq hlen
      rw [if_neg hlen]
      exact hfull
    | true =>
      have hput := put_settle hv hd
      by_cases hp : G.ptr p.coords = 0
      · cases htake : G.takeRecord with
        | none =>
          obtain ⟨hdesc, -⟩ := descend_path h.valid p
          rw [hG] at hdesc
          have hnone : G.free = [] := by
            rw [takeRecord] at htake
            split at htake
            · cases htake
            · assumption
          apply h.need_of_missing hN (List.prefix_refl _) (coords_ne_nil hN p)
          · rw [hG]
            exact hp
          · exact fun _ => hdesc.free.symm.trans hnone
          · rw [takeRecord_nil hnone] at htake
            rw [if_pos p.length_coords, hG, ← hdesc.kept.slot]
            split at htake
            · cases htake
            · omega
        | some rA =>
          rw [settle_insert hp htake] at hput
          cases (congrArg Prod.fst hput).symm.trans ho.reply
      · rw [settle_overwrite hp] at hput
        cases (congrArg Prod.fst hput).symm.trans ho.reply

theorem Compact.within (h : Compact ps L) (hN : 0 < N) : Within ps L := by
  refine ⟨h.valid, h.lost, fun q hq => (h.linked q hq).mp,
    ps.toFinset.filter (L.contents · ≠ none), ?_, ?_⟩
  · intro p
    rw [Finset.mem_filter]
    refine and_iff_right_of_imp fun hp => ?_
    have hlinked : L.ptr p.coords ≠ 0 := fun habs => hp (contents_absent habs)
    have hne := coords_ne_nil hN p
    exact (coords_mem_branches hN).mp (mem_branches.mpr ⟨hne, (h.linked _ hne).mp hlinked⟩)
  · rw [h.free, List.length_nil, Nat.add_zero]
    exact Finset.card_filter_le _ _

end Chton.AreaNeeds
