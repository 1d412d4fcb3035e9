import Chton.MapUpdates

/-!
# Layouts as finite maps

The map that a layout stands for is changed by `put` and `remove` at one path only, and
by no other part of an operation: creating nodes, moving records and losing spans keep
it. A `put` that is refused for lack of addresses met the end of the `u64` range.
-/

namespace Chton.LayoutContents
open ByteRegions Origins TreeStrategyProgram CoordMapProgram
open StoreLayouts StoreLayouts.Layout TreeDescents MapCalls

/-- What the store is for: byte strings under paths. -/
abbrev PathMap (N : ℕ) := CoordPath N → Option Bytes

variable {N : ℕ} {L G A : Layout} {p : CoordPath N} {v : Bytes} {r : ℕ} {pre rest : List Coord}

theorem contents_absent (h : L.ptr p.coords = 0) : L.contents p = none := if_pos h

theorem contents_linked (h : L.ptr p.coords ≠ 0) : L.contents p = some (L.val p.coords) := if_neg h

theorem contents_eq_none : L.contents p = none ↔ L.ptr p.coords = 0 := by
  constructor
  · intro h
    by_contra hp
    rw [contents_linked hp] at h
    cases h
  · exact contents_absent

theorem contents_kept (h : Kept N L G) : (G.contents : PathMap N) = L.contents := by
  funext p
  have hptr := h.ptr p.coords p.length_coords
  by_cases hp : L.ptr p.coords = 0
  · rw [contents_absent hp, contents_absent (hptr.trans hp)]
  · have hG : G.ptr p.coords ≠ 0 := fun h0 => hp (hptr ▸ h0)
    rw [contents_linked hp, contents_linked hG, h.val _ p.length_coords hp]

theorem contents_empty (hN : 0 < N) (slot : ℕ) :
    ((empty slot).contents : PathMap N) = fun _ => none := by
  funext p
  apply contents_absent
  simp [empty, coords_ne_nil hN p]

theorem contents_update {f : PathMap N} {x : Option Bytes} (hp : L.contents p = x)
    (hother : ∀ p' : CoordPath N, p'.coords ≠ p.coords → L.contents p' = f p') :
    (L.contents : PathMap N) = Function.update f p x := by
  funext p'
  by_cases h : p' = p
  · subst h
    rw [hp, Function.update_self]
  · rw [Function.update_of_ne h]
    exact hother p' fun hc => h (CoordPath.ext hc)

theorem contents_rewrite (hp : L.ptr p.coords ≠ 0) :
    ((L.rewrite p.coords v).contents : PathMap N) = Function.update L.contents p (some v) := by
  apply contents_update
  · have hp' : (L.rewrite p.coords v).ptr p.coords ≠ 0 := hp
    rw [contents_linked hp', rewrite_val, Function.update_self]
  · intro p' hne
    simp only [contents, rewrite_val, Function.update_of_ne hne]
    rfl

theorem contents_place (hr : r ≠ 0) :
    ((L.place p.coords r v).contents : PathMap N) = Function.update L.contents p (some v) := by
  apply contents_update
  · have hp : (L.place p.coords r v).ptr p.coords ≠ 0 := by
      rw [place_ptr, Function.update_self]
      exact hr
    rw [contents_linked hp, place_val, Function.update_self]
  · intro p' hne
    simp only [contents, place_ptr, place_val, Function.update_of_ne hne]

theorem contents_release :
    ((L.release p.coords).contents : PathMap N) = Function.update L.contents p none := by
  apply contents_update
  · apply contents_absent
    rw [release_ptr, Function.update_self]
  · intro p' hne
    simp only [contents, release_ptr, Function.update_of_ne hne]
    rfl

/-- No node or no record fits behind the bump pointer any more. -/
def Exhausted (L : Layout) : Prop := 2 ^ 64 ≤ L.bump + max nodeSpan L.slot

theorem descend_full (h : (L.descend pre rest).2 = false) : Exhausted (L.descend pre rest).1 := by
  induction rest generalizing pre L with
  | nil => cases h
  | cons c rest ih =>
    rw [descend] at h ⊢
    by_cases hrest : rest = []
    · rw [if_pos hrest] at h
      cases h
    by_cases habs : L.ptr (pre ++ [c]) = 0
    · by_cases hfit : L.bump + nodeSpan < 2 ^ 64
      · rw [if_neg hrest, if_pos habs, if_pos hfit] at h ⊢
        exact ih h
      · rw [if_neg hrest, if_pos habs, if_neg hfit]
        have hmax := le_max_left nodeSpan L.slot
        change 2 ^ 64 ≤ L.bump + max nodeSpan L.slot
        omega
    · rw [if_neg hrest, if_neg habs] at h ⊢
      exact ih h

theorem takeRecord_full (h : G.takeRecord = none) : Exhausted G := by
  by_cases hfree : G.free = []
  · rw [takeRecord_nil hfree] at h
    split at h
    · cases h
    · have := le_max_right nodeSpan G.slot
      rw [Exhausted]
      omega
  · obtain ⟨a, fs, hfree⟩ := List.exists_cons_of_ne_nil hfree
    rw [takeRecord_cons hfree] at h
    cases h

structure Stored (L : Layout) (p : CoordPath N) (v : Bytes) : Prop where
  small : ¬v.length > L.slot - lengthBytes
  reply : (L.put p v).1 = .ok (L.contents p)
  contents : ((L.put p v).2.contents : PathMap N) = Function.update L.contents p (some v)
  slot : (L.put p v).2.slot = L.slot
  lost : (L.put p v).2.lost = L.lost

structure Overflowed (L : Layout) (p : CoordPath N) (v : Bytes) : Prop where
  reply : (L.put p v).1 = .error ((L.put p v).2.areaFull.map .binding)
  exhausted : Exhausted (L.put p v).2
  kept : Kept N L (L.put p v).2
  lost : (L.put p v).2.lost = L.lost

theorem settle_cases (h : G.Valid N) (hk : Kept N L G) (hlost : G.lost = L.lost)
    (hv : ¬v.length > L.slot - lengthBytes) (hput : L.put p v = G.settle p v) :
    Stored L p v ∨ Overflowed L p v := by
  have hcontents := contents_kept hk
  by_cases hp : G.ptr p.coords = 0
  · cases htake : G.takeRecord with
    | none =>
      rw [settle_full hp htake] at hput
      refine .inr ⟨?_, ?_, ?_, ?_⟩ <;> rw [hput]
      · exact takeRecord_full htake
      · exact hk
      · exact hlost
    | some rA =>
      obtain ⟨r, A⟩ := rA
      obtain ⟨hptr, hval, hslot, hlost', -, -, -, -, hlo, -⟩ := h.takeRecord htake
      have hr : r ≠ 0 := by
        rw [rootEnd_eq] at hlo
        omega
      have hA : (A.contents : PathMap N) = L.contents := by
        funext p'
        rw [← hcontents, contents, contents, hptr, hval]
      rw [settle_insert hp htake] at hput
      refine .inl ⟨hv, ?_, ?_, ?_, ?_⟩ <;> rw [hput]
      · rw [← hcontents, contents_absent hp]
      · rw [contents_place hr, hA]
      · exact hslot.trans hk.slot
      · exact hlost'.trans hlost
  · rw [settle_overwrite hp] at hput
    refine .inl ⟨hv, ?_, ?_, ?_, ?_⟩ <;> rw [hput]
    · rw [← hcontents, contents_linked hp]
    · rw [contents_rewrite hp, hcontents]
    · exact hk.slot
    · exact hlost

theorem put_cases (h : L.Valid N) (p : CoordPath N) (v : Bytes) :
    v.length > L.slot - lengthBytes ∨ Stored L p v ∨ Overflowed L p v := by
  by_cases hv : v.length > L.slot - lengthBytes
  · exact .inl hv
  · right
    obtain ⟨hdesc, -⟩ := descend_path h p
    have hfull := @descend_full L [] p.coords
    cases hd : L.descend [] p.coords with
    | mk G flag =>
      rw [hd] at hdesc hfull
      cases flag with
      | true => exact settle_cases hdesc.valid hdesc.kept hdesc.lost hv (put_settle hv hd)
      | false =>
        have hput := put_full (v := v) hv hd
        refine .inr ⟨?_, ?_, ?_, ?_⟩ <;> rw [hput]
        · exact hfull rfl
        · exact hdesc.kept
        · exact hdesc.lost

/-- A put takes a free record if it needs one and there is one. -/
theorem put_free (h : L.Valid N) (hs : Stored L p v) : (L.put p v).2.free =
    if L.contents p = none then L.free.tail else L.free := by
  obtain ⟨hdesc, -⟩ := descend_path h p
  cases hd : L.descend [] p.coords with
  | mk G flag =>
    rw [hd] at hdesc
    cases flag with
    | false => exact nomatch (congrArg Prod.fst (put_full hs.small hd)).symm.trans hs.reply
    | true =>
      have hput := put_settle hs.small hd
      have hptr := hdesc.kept.ptr p.coords p.length_coords
      by_cases hp : G.ptr p.coords = 0
      · rw [if_pos (contents_absent (hptr.symm.trans hp)), hput]
        cases htake : G.takeRecord with
        | none =>
          rw [settle_full hp htake] at hput
          exact nomatch (congrArg Prod.fst hput).symm.trans hs.reply
        | some x =>
          rw [settle_insert hp htake, ← hdesc.free]
          rcases takeRecord_cases htake with ⟨fs, hfree, hA⟩ | ⟨hfree, -, -, hA⟩
          · simp [hA, place, hfree]
          · simp [hA, place, hfree]
      · rw [if_neg fun hnone => hp (hptr.trans (contents_eq_none.mp hnone)), hput,
          settle_overwrite hp]
        exact hdesc.free

theorem free_of_error (h : L.Valid N) {e : Stop MapError}
    (he : (L.put p v).1 = .error e) : (L.put p v).2.free = L.free := by
  by_cases hv : v.length > L.slot - lengthBytes
  · rw [put_tooLarge hv]
  · obtain ⟨hdesc, -⟩ := descend_path h p
    cases hd : L.descend [] p.coords with
    | mk G flag =>
      rw [hd] at hdesc
      cases flag with
      | false =>
        rw [put_full hv hd]
        exact hdesc.free
      | true =>
        have hput := put_settle hv hd
        by_cases hp : G.ptr p.coords = 0
        · cases htake : G.takeRecord with
          | none =>
            rw [hput, settle_full hp htake]
            exact hdesc.free
          | some rA =>
            rw [settle_insert hp htake] at hput
            exact nomatch (congrArg Prod.fst hput).symm.trans he
        · rw [settle_overwrite hp] at hput
          exact nomatch (congrArg Prod.fst hput).symm.trans he

theorem remove_contents (L : Layout) (p : CoordPath N) :
    (L.remove p).1 = .ok (L.contents p) ∧
      ((L.remove p).2.contents : PathMap N) = Function.update L.contents p none ∧
      (L.remove p).2.slot = L.slot ∧ (L.remove p).2.lost = L.lost := by
  by_cases hp : L.ptr p.coords = 0
  · rw [remove, if_pos hp, contents_absent hp]
    refine ⟨rfl, ?_, rfl, rfl⟩
    rw [← contents_absent hp, Function.update_eq_self]
  · rw [remove, if_neg hp, contents_linked hp]
    exact ⟨rfl, contents_release, rfl, rfl⟩

end Chton.LayoutContents
