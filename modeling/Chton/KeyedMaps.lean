import Mathlib.Data.List.Perm.Basic
import Mathlib.Data.List.Nodup
import Mathlib.Logic.Function.Basic

/-!
# Maps kept under other keys

A map `g` on names is kept as a map `f` on places: the entry of a name stands at the place
of the name, encoded together with the name, and places without a name stay empty. Where
names with a place do not share it, an update of the one map is an update of the other,
and an enumeration of the places enumerates the names.
-/

namespace Chton.KeyedMaps

variable {κ π α β : Type}

structure Lists (f : π → Option β) (ps : List π) : Prop where
  nodup : ps.Nodup
  mem : ∀ p, p ∈ ps ↔ f p ≠ none

theorem Lists.perm {f : π → Option β} {ps qs : List π} (h : Lists f ps) (h' : Lists f qs) :
    ps.Perm qs := by
  apply (List.perm_ext_iff_of_nodup h.nodup h'.nodup).mpr
  intro p
  rw [h.mem, h'.mem]

/-- `f` holds the entries of `g` at their places, and nothing else. -/
structure Encodes (place : κ → Option π) (enc : κ → α → β) (f : π → Option β)
    (g : κ → Option α) : Prop where
  value : ∀ k p, place k = some p → f p = (g k).map (enc k)
  named : ∀ p, f p ≠ none → ∃ k, place k = some p
  placed : ∀ k, g k ≠ none → ∃ p, place k = some p

def Apart (place : κ → Option π) : Prop := ∀ k l p, place k = some p → place l = some p → k = l

variable {place : κ → Option π} {enc : κ → α → β} {f : π → Option β} {g : κ → Option α}
  {k : κ} {p : π}

theorem encodes_none : Encodes place enc (fun _ => none) fun _ => none :=
  ⟨fun _ _ _ => rfl, fun _ h => absurd rfl h, fun _ h => absurd rfl h⟩

theorem Encodes.absent (h : Encodes place enc f g) (hk : place k = none) : g k = none := by
  by_contra hne
  obtain ⟨p, hp⟩ := h.placed k hne
  exact nomatch hk.symm.trans hp

/-- The entries of the names determine what stands at the places. -/
theorem Encodes.unique {f' : π → Option β} (h : Encodes place enc f g)
    (h' : Encodes place enc f' g) : f = f' := by
  funext p
  by_cases hp : ∃ k, place k = some p
  · obtain ⟨k, hk⟩ := hp
    rw [h.value k p hk, h'.value k p hk]
  · have hnone : f p = none := by
      by_contra hne
      exact hp (h.named p hne)
    have hnone' : f' p = none := by
      by_contra hne
      exact hp (h'.named p hne)
    rw [hnone, hnone']

theorem Encodes.update [DecidableEq κ] [DecidableEq π] (h : Encodes place enc f g)
    (hapart : Apart place) (hp : place k = some p) (x : Option α) :
    Encodes place enc (Function.update f p (x.map (enc k))) (Function.update g k x) := by
  constructor
  · intro l q hq
    by_cases hl : l = k
    · subst hl
      cases hp.symm.trans hq
      rw [Function.update_self, Function.update_self]
    · have hne : q ≠ p := by
        intro hqp
        subst hqp
        exact hl (hapart l k q hq hp)
      rw [Function.update_of_ne hne, Function.update_of_ne hl, h.value l q hq]
  · intro q hq
    by_cases hqp : q = p
    · exact ⟨k, hqp ▸ hp⟩
    · rw [Function.update_of_ne hqp] at hq
      exact h.named q hq
  · intro l hl
    by_cases hlk : l = k
    · exact ⟨p, hlk ▸ hp⟩
    · rw [Function.update_of_ne hlk] at hl
      exact h.placed l hl

theorem Encodes.exists_names (h : Encodes place enc f g) {ps : List π}
    (hps : ∀ p ∈ ps, f p ≠ none) : ∃ ks : List κ, ks.map place = ps.map some := by
  induction ps with
  | nil => exact ⟨[], rfl⟩
  | cons p ps ih =>
    obtain ⟨hp, hps⟩ := List.forall_mem_cons.mp hps
    obtain ⟨k, hk⟩ := h.named p hp
    obtain ⟨ks, hks⟩ := ih hps
    exact ⟨k :: ks, by rw [List.map_cons, List.map_cons, hk, hks]⟩

/-- Enumerating the places enumerates the names. -/
theorem Encodes.names (h : Encodes place enc f g) (hapart : Apart place) {ps : List π}
    (hps : Lists f ps) : ∃ ks : List κ, Lists g ks ∧ ks.map place = ps.map some := by
  obtain ⟨ks, hks⟩ := h.exists_names fun p hp => (hps.mem p).mp hp
  have hnodup : ks.Nodup := by
    apply List.Nodup.of_map place
    rw [hks]
    exact hps.nodup.map fun _ _ h => Option.some.inj h
  refine ⟨ks, ⟨hnodup, ?_⟩, hks⟩
  intro k
  constructor
  · intro hk
    obtain ⟨p, hp, hplace⟩ := List.mem_map.mp (hks ▸ List.mem_map_of_mem hk)
    have hval := h.value k p hplace.symm
    intro hnone
    rw [hnone] at hval
    exact (hps.mem p).mp hp hval
  · intro hk
    obtain ⟨p, hp⟩ := h.placed k hk
    obtain ⟨a, ha⟩ := Option.ne_none_iff_exists'.mp hk
    have hmem : p ∈ ps := by
      rw [hps.mem, h.value k p hp, ha]
      exact Option.some_ne_none _
    obtain ⟨l, hl, hplace⟩ := List.mem_map.mp (hks.symm ▸ List.mem_map_of_mem hmem)
    exact hapart k l p hp hplace ▸ hl

theorem length_of_places {ks : List κ} {ps : List π} (h : ks.map place = ps.map some) :
    ks.length = ps.length := by
  rw [← List.length_map place, h, List.length_map]

theorem Encodes.entries (h : Encodes place enc f g) {ks : List κ} {ps : List π}
    (hks : ks.map place = ps.map some) :
    ps.map f = ks.map fun k => (g k).map (enc k) := by
  induction ps generalizing ks with
  | nil =>
    rw [List.map_nil, List.map_eq_nil_iff] at hks
    rw [hks]
    rfl
  | cons p ps ih =>
    obtain ⟨k, ks, rfl, hk, hks⟩ := List.map_eq_cons_iff.mp hks
    rw [List.map_cons, List.map_cons, h.value k p hk, ih hks]

theorem Encodes.values (h : Encodes place enc f g) {ks : List κ} {ps : List π}
    (hks : ks.map place = ps.map some) :
    ps.filterMap f = ks.filterMap fun k => (g k).map (enc k) := by
  have hentries := congrArg (List.filterMap id) (h.entries hks)
  rw [List.filterMap_map, List.filterMap_map] at hentries
  exact hentries

end Chton.KeyedMaps
