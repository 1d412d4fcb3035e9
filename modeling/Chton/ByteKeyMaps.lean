import Chton.FileBatches
import Chton.FiniteMaps
import Chton.MapServices

/-!
# The byte keys of a store

`CoordMap` and `CoordMapKey` address a store by strings of `N` bytes and by byte keys, the
`_path` methods by any coordinates. A byte key stands for the path of its bytes, so both
surfaces work on one map of paths. An enumeration names its entries by byte keys, which
is faithful exactly for the entries whose coordinates are bytes.

The conversion of a string to a byte key belongs to tagma-map and is a parameter.
-/

namespace Chton.ByteKeyMaps
open OutcomePrograms CallRuns ByteRegions Origins TextBytes TreeStrategyProgram CoordMapProgram
open StoreLayouts StoreLayouts.Layout MapCalls LayoutContents KeyedMaps StoreRuns MapServices
open Enumerations FileNames FileBatches FiniteMaps AreaNeeds StoreSpans PrefixTreeTraversals

inductive KeyOperation where
  | clear | insert | get | remove
  deriving DecidableEq, Repr

inductive KeyFailure where
  /-- A string that is no byte key. -/
  | key
  | failed (operation : KeyOperation) (error : MapError)
  | panic (cause : Panic)

variable {N : ℕ} {σ α : Type}

abbrev KeyProgram (N : ℕ) (σ α : Type) := EStateM KeyFailure (CoordMapStore 64 N σ) α

def KeyFailure.ofStop (operation : KeyOperation) : Stop MapError → KeyFailure
  | .err e => .failed operation e
  | .panic cause => .panic cause

/-- `unwrap_or_else(|e| panic!("map {operation} failed: {e}"))`. -/
def unwrap (operation : KeyOperation) (x : MapProgram 64 N σ α) : KeyProgram N σ α :=
  focus id (fun st _ => st) (KeyFailure.ofStop operation) x

/-- Strings of `N` bytes, and no others, convert to the key of their bytes. -/
def Converts (fromStr : String → Option (CoordKey N)) : Prop :=
  ∀ key ck, fromStr key = some ck ↔ ck.bytes = asBytes key

/-- `key.into()`. -/
def intoKey (fromStr : String → Option (CoordKey N)) (key : String) : KeyProgram N σ (CoordKey N) :=
  match fromStr key with
  | some ck => pure ck
  | none => throw .key

section
variable [Origin σ] (byteCoord : UInt8 → Coord) (fromStr : String → Option (CoordKey N))

def insertByCoordkey (key : CoordKey N) (value : Bytes) : KeyProgram N σ (Option Bytes) :=
  unwrap .insert (putPath (toCoordPath byteCoord key) value)

def getByCoordkey (key : CoordKey N) : KeyProgram N σ (Option Bytes) :=
  unwrap .get (getPath (toCoordPath byteCoord key))

def removeByCoordkey (key : CoordKey N) : KeyProgram N σ (Option Bytes) :=
  unwrap .remove (removePath (toCoordPath byteCoord key))

/-- A string of another length is no key, and the conversion panics. -/
def CoordMap.insert (key : String) (value : Bytes) : KeyProgram N σ (Option Bytes) := do
  let ck ← intoKey fromStr key
  insertByCoordkey byteCoord ck value

def CoordMap.get (key : String) : KeyProgram N σ (Option Bytes) :=
  if (asBytes key).length ≠ N then pure none else do
  let ck ← intoKey fromStr key
  getByCoordkey byteCoord ck

def CoordMap.remove (key : String) : KeyProgram N σ (Option Bytes) :=
  if (asBytes key).length ≠ N then pure none else do
  let ck ← intoKey fromStr key
  removeByCoordkey byteCoord ck

def CoordMap.clear : KeyProgram N σ Unit := unwrap .clear clearChecked

def CoordMap.isEmpty (st : CoordMapStore 64 N σ) : Bool := st.len = 0

end

inductive KeyCall (N : ℕ) where
  | insert (key : String) (value : Value)
  | get (key : String)
  | remove (key : String)
  | insertByCoordkey (key : CoordKey N) (value : Value)
  | getByCoordkey (key : CoordKey N)
  | removeByCoordkey (key : CoordKey N)
  | clear
  | len
  | isEmpty
  | path (c : MapCall N)

inductive KeyReply (N : ℕ) where
  | value (r : Except KeyFailure (Option Bytes))
  | cleared (r : Except KeyFailure Unit)
  | len (n : ℕ)
  | isEmpty (b : Bool)
  | path (r : Reply N)

def replyBy {ρ : Type} (f : Except KeyFailure α → ρ) (x : KeyProgram N σ α)
    (st : CoordMapStore 64 N σ) : ρ × CoordMapStore 64 N σ := (f (answer x st).1, (answer x st).2)

section
variable [Origin σ] (byteCoord : UInt8 → Coord) (fromStr : String → Option (CoordKey N))

def KeyCall.perform : KeyCall N → CoordMapStore 64 N σ → KeyReply N × CoordMapStore 64 N σ
  | .insert key value => replyBy .value (CoordMap.insert byteCoord fromStr key value.val)
  | .get key => replyBy .value (CoordMap.get byteCoord fromStr key)
  | .remove key => replyBy .value (CoordMap.remove byteCoord fromStr key)
  | .insertByCoordkey key value =>
    replyBy .value (ByteKeyMaps.insertByCoordkey byteCoord key value.val)
  | .getByCoordkey key => replyBy .value (ByteKeyMaps.getByCoordkey byteCoord key)
  | .removeByCoordkey key => replyBy .value (ByteKeyMaps.removeByCoordkey byteCoord key)
  | .clear => replyBy .cleared CoordMap.clear
  | .len => fun st => (.len st.len, st)
  | .isEmpty => fun st => (.isEmpty (CoordMap.isEmpty st), st)
  | .path c => fun st => (.path (c.perform st).1, (c.perform st).2)

end

/-- The call on paths that a call amounts to, if there is one. -/
def KeyCall.onPaths (byteCoord : UInt8 → Coord) (fromStr : String → Option (CoordKey N)) :
    KeyCall N → Option (MapCall N)
  | .insert key value => (fromStr key).map fun ck => .put (toCoordPath byteCoord ck) value
  | .get key => (fromStr key).map fun ck => .get (toCoordPath byteCoord ck)
  | .remove key => (fromStr key).map fun ck => .remove (toCoordPath byteCoord ck)
  | .insertByCoordkey key value => some (.put (toCoordPath byteCoord key) value)
  | .getByCoordkey key => some (.get (toCoordPath byteCoord key))
  | .removeByCoordkey key => some (.remove (toCoordPath byteCoord key))
  | .clear => some .clear
  | .len => none
  | .isEmpty => none
  | .path c => some c

def KeyCall.operation : KeyCall N → KeyOperation
  | .insert _ _ => .insert
  | .insertByCoordkey _ _ => .insert
  | .remove _ => .remove
  | .removeByCoordkey _ => .remove
  | .clear => .clear
  | _ => .get

inductive Alike (operation : KeyOperation) : KeyReply N → Reply N → Prop
  | value (v : Option Bytes) : Alike operation (.value (.ok v)) (.ok (.value v))
  | failed (e : Stop MapError) :
    Alike operation (.value (.error (KeyFailure.ofStop operation e))) (.error e)
  | cleared : Alike operation (.cleared (.ok ())) (.ok .done)
  | kept (e : Stop MapError) :
    Alike operation (.cleared (.error (KeyFailure.ofStop operation e))) (.error e)
  | path (r : Reply N) : Alike operation (.path r) r

def SameOutcome (operation : KeyOperation) (x : KeyReply N × CoordMapStore 64 N σ)
    (y : Reply N × CoordMapStore 64 N σ) : Prop := Alike operation x.1 y.1 ∧ x.2 = y.2

theorem ofStop_injective (operation : KeyOperation) :
    Function.Injective (KeyFailure.ofStop operation) := by
  intro e e' h
  cases e with
  | err e =>
    cases e' with
    | err e' =>
      cases h
      rfl
    | panic cause => cases h
  | panic cause =>
    cases e' with
    | err e' => cases h
    | panic cause' =>
      cases h
      rfl

theorem Alike.unique {operation : KeyOperation} {r : KeyReply N} {x y : Reply N}
    (hx : Alike operation r x) (hy : Alike operation r y) : x = y := by
  cases hx with
  | value v =>
    cases hy
    rfl
  | failed e =>
    generalize he : KeyFailure.ofStop operation e = failure at hy
    cases hy with
    | failed e' => rw [ofStop_injective operation he]
  | cleared =>
    cases hy
    rfl
  | kept e =>
    generalize he : KeyFailure.ofStop operation e = failure at hy
    cases hy with
    | kept e' => rw [ofStop_injective operation he]
  | path r =>
    cases hy
    rfl

theorem unwrap_outcome {operation : KeyOperation} {f : Except KeyFailure α → KeyReply N}
    {g : α → Answer N} (hok : ∀ a, Alike operation (f (.ok a)) (.ok (g a)))
    (herror : ∀ e, Alike operation (f (.error (KeyFailure.ofStop operation e))) (.error e))
    (x : MapProgram 64 N σ α) (st : CoordMapStore 64 N σ) :
    SameOutcome operation (replyBy f (unwrap operation x) st)
      (answer (x >>= fun a => pure (g a)) st) := by
  rcases hx : x st with ⟨a, st'⟩ | ⟨e, st'⟩
  · have hleft : answer (unwrap operation x) st = (.ok a, st') := by
      simp [answer, unwrap, focus, hx]
    rw [replyBy, hleft, answer_bind (answer_of_ok hx)]
    exact ⟨hok a, rfl⟩
  · have hleft : answer (unwrap operation x) st =
        (.error (KeyFailure.ofStop operation e), st') := by
      simp [answer, unwrap, focus, hx]
    rw [replyBy, hleft, answer_bind_error (answer_of_error hx)]
    exact ⟨herror e, rfl⟩

variable {byteCoord : UInt8 → Coord} {fromStr : String → Option (CoordKey N)}

theorem length_of_fromStr (hfrom : Converts fromStr) {key : String} {ck : CoordKey N}
    (h : fromStr key = some ck) : (asBytes key).length = N := by
  rw [← (hfrom key ck).mp h, ck.length_bytes]

theorem intoKey_eq {key : String} {ck : CoordKey N} (h : fromStr key = some ck) :
    (intoKey fromStr key : KeyProgram N σ _) = pure ck := by
  rw [intoKey, h]

theorem perform_alike [Origin σ] (hfrom : Converts fromStr) {c : KeyCall N} {m : MapCall N}
    (h : c.onPaths byteCoord fromStr = some m)
    (st : CoordMapStore 64 N σ) :
    SameOutcome c.operation (c.perform byteCoord fromStr st) (m.perform st) := by
  cases c with
  | insert key value =>
    obtain ⟨ck, hck, rfl⟩ := Option.map_eq_some_iff.mp h
    rw [KeyCall.perform, CoordMap.insert, intoKey_eq hck, pure_bind]
    exact unwrap_outcome .value .failed _ st
  | get key =>
    obtain ⟨ck, hck, rfl⟩ := Option.map_eq_some_iff.mp h
    rw [KeyCall.perform, CoordMap.get, if_neg (not_not.mpr (length_of_fromStr hfrom hck)),
      intoKey_eq hck, pure_bind]
    exact unwrap_outcome .value .failed _ st
  | remove key =>
    obtain ⟨ck, hck, rfl⟩ := Option.map_eq_some_iff.mp h
    rw [KeyCall.perform, CoordMap.remove, if_neg (not_not.mpr (length_of_fromStr hfrom hck)),
      intoKey_eq hck, pure_bind]
    exact unwrap_outcome .value .failed _ st
  | insertByCoordkey key value =>
    cases h
    exact unwrap_outcome .value .failed _ st
  | getByCoordkey key =>
    cases h
    exact unwrap_outcome .value .failed _ st
  | removeByCoordkey key =>
    cases h
    exact unwrap_outcome .value .failed _ st
  | clear =>
    cases h
    exact unwrap_outcome (fun _ => .cleared) .kept _ st
  | len => cases h
  | isEmpty => cases h
  | path c =>
    cases h
    exact ⟨.path _, rfl⟩

theorem perform_aside [Origin σ] {c : KeyCall N} (hc : c.onPaths byteCoord fromStr = none)
    (st : CoordMapStore 64 N σ) : (c.perform byteCoord fromStr st).2 = st := by
  cases c with
  | insert key value =>
    rw [KeyCall.perform, CoordMap.insert, intoKey, Option.map_eq_none_iff.mp hc]
    rfl
  | get key =>
    rw [KeyCall.perform, CoordMap.get, intoKey, Option.map_eq_none_iff.mp hc]
    split <;> rfl
  | remove key =>
    rw [KeyCall.perform, CoordMap.remove, intoKey, Option.map_eq_none_iff.mp hc]
    split <;> rfl
  | len => rfl
  | isEmpty => rfl
  | insertByCoordkey key value => cases hc
  | getByCoordkey key => cases hc
  | removeByCoordkey key => cases hc
  | clear => cases hc
  | path c => cases hc

/-- A call of either surface on a map of paths, in slots of `slot` bytes. -/
inductive Serves (byteCoord : UInt8 → Coord) (fromStr : String → Option (CoordKey N)) (slot : ℕ) :
    PathMap N → KeyCall N × KeyReply N → PathMap N → Prop
  | call {c : KeyCall N} {m : MapCall N} {r : KeyReply N} {f : PathMap N}
    (hm : c.onPaths byteCoord fromStr = some m)
    (hr : Alike c.operation r (MapCall.onMap (slot - lengthBytes) m f).1) :
    Serves byteCoord fromStr slot f (c, r) (MapCall.onMap (slot - lengthBytes) m f).2
  /-- An insertion for which there are no addresses left. -/
  | full {c : KeyCall N} {p : CoordPath N} {v : Value} {r : KeyReply N} {f : PathMap N} {bump : ℕ}
    (hm : c.onPaths byteCoord fromStr = some (.put p v))
    (hr : Alike c.operation r (overflowAt bump)) (hbump : 2 ^ 64 ≤ bump + max nodeSpan slot) :
    Serves byteCoord fromStr slot f (c, r) f
  | insert {key : String} {v : Value} {f : PathMap N} (h : (asBytes key).length ≠ N) :
    Serves byteCoord fromStr slot f (.insert key v, .value (.error .key)) f
  | get {key : String} {f : PathMap N} (h : (asBytes key).length ≠ N) :
    Serves byteCoord fromStr slot f (.get key, .value (.ok none)) f
  | remove {key : String} {f : PathMap N} (h : (asBytes key).length ≠ N) :
    Serves byteCoord fromStr slot f (.remove key, .value (.ok none)) f
  | len {ps : List (CoordPath N)} {f : PathMap N} (h : Lists f ps) :
    Serves byteCoord fromStr slot f (.len, .len ps.length) f
  | isEmpty {f : PathMap N} {b : Bool} (h : b = true ↔ f = fun _ => none) :
    Serves byteCoord fromStr slot f (.isEmpty, .isEmpty b) f

variable [ByteOrigin σ] {slot : ℕ} {st : CoordMapStore 64 N σ} {f : PathMap N}

theorem perform_backs (hfail : NeverFails σ) (hN : 0 < N) (h : Backs slot st f) (c : MapCall N) :
    ((c.perform st).1 = (MapCall.onMap (slot - lengthBytes) c f).1 ∧
        Backs slot (c.perform st).2 (MapCall.onMap (slot - lengthBytes) c f).2) ∨
      Refused slot c (c.perform st) ∧ Backs slot (c.perform st).2 f := by
  obtain ⟨L, hL, rfl, rfl⟩ := h
  obtain ⟨-, hL'⟩ := (StoreCall.map c).perform_eq hfail hN hL
  obtain ⟨hreply, -, hs | ⟨ht, hrefused⟩⟩ := serves_or_refused hfail hN hL.holds c
  · exact .inl ⟨hreply.trans hs.reply, _, hL', hs.slot, hs.contents⟩
  · exact .inr ⟨hrefused, _, hL', ht.slot, ht.contents⟩

theorem fromStr_cases (hfrom : Converts fromStr) (key : String) :
    (∃ ck, fromStr key = some ck) ∨ (asBytes key).length ≠ N := by
  by_cases hlen : (asBytes key).length = N
  · exact .inl ⟨⟨asBytes key, hlen⟩, (hfrom key _).mpr rfl⟩
  · exact .inr hlen

theorem eq_nil_iff {ps : List (CoordPath N)} (h : Lists f ps) : ps = [] ↔ f = fun _ => none := by
  constructor
  · intro hnil
    funext p
    by_contra hp
    have hmem := (h.mem p).mpr hp
    simp [hnil] at hmem
  · intro hnone
    rw [List.eq_nil_iff_forall_not_mem]
    intro p hp
    exact (h.mem p).mp hp (congrFun hnone p)

/-- The call is served by the map that the store stands for. -/
def Served (byteCoord : UInt8 → Coord) (fromStr : String → Option (CoordKey N)) (slot : ℕ)
    (f : PathMap N) (c : KeyCall N) (st : CoordMapStore 64 N σ) : Prop :=
  ∃ f', Serves byteCoord fromStr slot f (c, (c.perform byteCoord fromStr st).1) f' ∧
    Backs slot (c.perform byteCoord fromStr st).2 f'

theorem served_onPaths (hfrom : Converts fromStr) (hfail : NeverFails σ) (hN : 0 < N)
    (h : Backs slot st f) {c : KeyCall N} {m : MapCall N}
    (hm : c.onPaths byteCoord fromStr = some m) : Served byteCoord fromStr slot f c st := by
  obtain ⟨halike, hstate⟩ := perform_alike hfrom hm st
  rw [Served, hstate]
  rcases perform_backs hfail hN h m with ⟨hreply, hback⟩ | ⟨hrefused, hback⟩
  · exact ⟨_, .call hm (hreply ▸ halike), hback⟩
  · obtain ⟨p, v, rfl, -⟩ := hrefused.put
    exact ⟨f, .full hm (hrefused.reply ▸ halike) hrefused.full, hback⟩

theorem call_served (hfrom : Converts fromStr) (hfail : NeverFails σ) (hN : 0 < N)
    (h : Backs slot st f) (c : KeyCall N) :
    Served byteCoord fromStr slot f c st := by
  cases c with
  | insert key value =>
    rcases fromStr_cases hfrom key with ⟨ck, hck⟩ | hlen
    · exact served_onPaths hfrom hfail hN h (Option.map_eq_some_iff.mpr ⟨ck, hck, rfl⟩)
    · have hnone : fromStr key = none := by
        rw [Option.eq_none_iff_forall_ne_some]
        exact fun ck hck => hlen (length_of_fromStr hfrom hck)
      rw [Served, KeyCall.perform, CoordMap.insert, intoKey, hnone]
      exact ⟨f, .insert hlen, h⟩
  | get key =>
    rcases fromStr_cases hfrom key with ⟨ck, hck⟩ | hlen
    · exact served_onPaths hfrom hfail hN h (Option.map_eq_some_iff.mpr ⟨ck, hck, rfl⟩)
    · rw [Served, KeyCall.perform, CoordMap.get, if_pos hlen]
      exact ⟨f, .get hlen, h⟩
  | remove key =>
    rcases fromStr_cases hfrom key with ⟨ck, hck⟩ | hlen
    · exact served_onPaths hfrom hfail hN h (Option.map_eq_some_iff.mpr ⟨ck, hck, rfl⟩)
    · rw [Served, KeyCall.perform, CoordMap.remove, if_pos hlen]
      exact ⟨f, .remove hlen, h⟩
  | insertByCoordkey key value => exact served_onPaths hfrom hfail hN h rfl
  | getByCoordkey key => exact served_onPaths hfrom hfail hN h rfl
  | removeByCoordkey key => exact served_onPaths hfrom hfail hN h rfl
  | clear => exact served_onPaths hfrom hfail hN h rfl
  | path c => exact served_onPaths hfrom hfail hN h rfl
  | len =>
    obtain ⟨ps, hps, hlen⟩ := len_backs h
    refine ⟨f, ?_, h⟩
    change Serves byteCoord fromStr slot f (.len, .len st.len) f
    rw [hlen]
    exact .len hps
  | isEmpty =>
    obtain ⟨ps, hps, hlen⟩ := len_backs h
    refine ⟨f, .isEmpty ?_, h⟩
    rw [CoordMap.isEmpty, decide_eq_true_iff, hlen, List.length_eq_zero_iff]
    exact eq_nil_iff hps

/-- What an enumeration says: the paths with a value in ascending order, each by its low bytes. -/
structure Listing (f : PathMap N) (ps : List (CoordPath N)) (es : List (CoordKey N × Bytes)) :
    Prop where
  lists : Lists f ps
  ascending : ps.Pairwise fun p q => List.Lex (· < ·) p.coords q.coords
  entries : es = ps.filterMap fun p => (f p).map fun v => (projectByteKey p, v)

theorem listing_backs (hfail : NeverFails σ) (hN : 0 < N) (h : Backs slot st f) :
    ∃ ps es, (answer entries st).1 = .ok es ∧ Listing f ps es := by
  obtain ⟨L, hL, -, rfl⟩ := h
  have hvalid := hL.holds.mount.valid
  refine ⟨livePaths N L, entriesOf N L, ?_, ⟨livePaths_nodup, ?_⟩, sorted_livePaths, ?_⟩
  · exact (answer_eq (I := fun _ => True) ((entries_spec hN hL.holds.mount hL.synced).mono
      (fun es _ hes => ⟨congrArg _ hes.1.symm, trivial⟩)
        fun _ _ hf => (not_faulted hfail hf).elim)).1
  · intro p
    rw [mem_livePaths hvalid.toWired, Ne, Ne, contents_eq_none]
  · rw [entriesOf, ← List.filterMap_eq_map]
    apply List.filterMap_congr
    intro p hp
    rw [contents_linked ((mem_livePaths hvalid.toWired).mp hp)]
    rfl

theorem ofNat_byteCoord (hindex : ∀ b, (byteCoord b).val = b.toNat) (b : UInt8) :
    UInt8.ofNat (byteCoord b).val = b := by
  rw [hindex, UInt8.ofNat_toNat]

/-- The low byte of a coordinate gives it back exactly if it is a byte. -/
theorem byteCoord_ofNat_iff (hindex : ∀ b, (byteCoord b).val = b.toNat) (c : Coord) :
    byteCoord (UInt8.ofNat c.val) = c ↔ c.val < 256 := by
  constructor
  · intro h
    rw [← h, hindex]
    exact UInt8.toNat_lt _
  · intro h
    apply Fin.ext
    rw [hindex, UInt8.toNat_ofNat_of_lt' h]

/-- The low bytes of a path name it exactly if its coordinates are bytes. -/
theorem project_faithful_iff (hindex : ∀ b, (byteCoord b).val = b.toNat) (p : CoordPath N) :
    toCoordPath byteCoord (projectByteKey p) = p ↔ ∀ c ∈ p.coords, c.val < 256 := by
  have hcoords : (toCoordPath byteCoord (projectByteKey p)).coords =
      p.coords.map fun c => byteCoord (UInt8.ofNat c.val) := List.map_map
  rw [CoordPath.ext_iff, hcoords]
  constructor
  · intro h c hc
    rw [← h] at hc
    obtain ⟨c', -, rfl⟩ := List.mem_map.mp hc
    rw [hindex]
    exact UInt8.toNat_lt _
  · intro h
    conv_rhs => rw [← List.map_id p.coords]
    exact List.map_congr_left fun c hc => (byteCoord_ofNat_iff hindex c).mpr (h c hc)

theorem project_toCoordPath (hindex : ∀ b, (byteCoord b).val = b.toNat) (k : CoordKey N) :
    projectByteKey (toCoordPath byteCoord k) = k := by
  have hbytes : (projectByteKey (toCoordPath byteCoord k)).bytes =
      k.bytes.map fun b => UInt8.ofNat (byteCoord b).val := List.map_map
  apply CoordKey.ext
  rw [hbytes]
  conv_rhs => rw [← List.map_id k.bytes]
  exact List.map_congr_left fun b _ => ofNat_byteCoord hindex b

/-- Where all entries have byte keys, an enumeration lists them by their keys in byte order. -/
theorem Listing.bytes {ps : List (CoordPath N)} {es : List (CoordKey N × Bytes)}
    (h : Listing f ps es) (hindex : ∀ b, (byteCoord b).val = b.toNat)
    (hbytes : ∀ p, f p ≠ none → ∃ k, p = toCoordPath byteCoord k) :
    (es.Pairwise fun e e' => List.Lex (· < ·) e.1.bytes e'.1.bytes) ∧
      ∀ k v, (k, v) ∈ es ↔ f (toCoordPath byteCoord k) = some v := by
  have hnamed {p : CoordPath N} (hp : p ∈ ps) :
      ∃ k, p = toCoordPath byteCoord k ∧ projectByteKey p = k := by
    obtain ⟨k, rfl⟩ := hbytes p ((h.lists.mem p).mp hp)
    exact ⟨k, rfl, project_toCoordPath hindex k⟩
  have hinj : Function.Injective byteCoord := by
    intro b b' hb
    have hval := congrArg Fin.val hb
    rw [hindex, hindex] at hval
    exact UInt8.toNat_inj.mp hval
  rw [h.entries]
  constructor
  · rw [List.pairwise_filterMap]
    apply h.ascending.imp_of_mem
    intro p q hp hq hlex e he e' he'
    obtain ⟨v, -, rfl⟩ := Option.map_eq_some_iff.mp he
    obtain ⟨v', -, rfl⟩ := Option.map_eq_some_iff.mp he'
    obtain ⟨k, rfl, hk⟩ := hnamed hp
    obtain ⟨l, rfl, hl⟩ := hnamed hq
    rw [hk, hl]
    refine lex_of_map hinj ?_ hlex
    intro b b' hb
    rw [Fin.lt_def, hindex, hindex] at hb
    exact UInt8.lt_iff_toNat_lt.mpr hb
  · intro k v
    simp only [List.mem_filterMap, Option.map_eq_some_iff, Prod.mk.injEq]
    constructor
    · intro hmem
      obtain ⟨p, hp, v', hv, rfl, rfl⟩ := hmem
      obtain ⟨l, rfl, hl⟩ := hnamed hp
      rwa [hl]
    · intro hv
      refine ⟨toCoordPath byteCoord k, ?_, v, hv, project_toCoordPath hindex k, rfl⟩
      rw [h.lists.mem, hv]
      exact Option.some_ne_none v

def KeyCall.PutsPath (c : KeyCall N) : Prop := ∃ p v, c = .path (.put p v)

theorem onMap_ne_none {limit : ℕ} {m : MapCall N} {p : CoordPath N}
    (h : (MapCall.onMap limit m f).2 p ≠ none) : f p ≠ none ∨ ∃ v, m = .put p v := by
  cases m with
  | get q => exact .inl h
  | put q v =>
    by_cases hpq : p = q
    · subst hpq
      exact .inr ⟨v, rfl⟩
    · rw [onMap_apart limit rfl hpq] at h
      exact .inl h
  | remove q =>
    by_cases hpq : p = q
    · subst hpq
      exact absurd (Function.update_self _ _ _) h
    · rw [onMap_apart limit rfl hpq] at h
      exact .inl h
  | clear => exact absurd rfl h

theorem put_named {c : KeyCall N} {p : CoordPath N} {v : Value}
    (hm : c.onPaths byteCoord fromStr = some (.put p v)) (hc : ¬ c.PutsPath) :
    ∃ k, p = toCoordPath byteCoord k := by
  cases c with
  | insert key value =>
    obtain ⟨ck, -, hck⟩ := Option.map_eq_some_iff.mp hm
    cases hck
    exact ⟨ck, rfl⟩
  | insertByCoordkey key value =>
    cases hm
    exact ⟨key, rfl⟩
  | path m =>
    cases hm
    exact absurd ⟨p, v, rfl⟩ hc
  | get key =>
    obtain ⟨ck, -, hck⟩ := Option.map_eq_some_iff.mp hm
    cases hck
  | remove key =>
    obtain ⟨ck, -, hck⟩ := Option.map_eq_some_iff.mp hm
    cases hck
  | getByCoordkey key => cases hm
  | removeByCoordkey key => cases hm
  | clear => cases hm
  | len => cases hm
  | isEmpty => cases hm

/-- Without puts at other paths, all entries have byte keys. -/
theorem allowed_bytes {xs : List (KeyCall N × KeyReply N)} {g : PathMap N}
    (h : Allowed (Serves byteCoord fromStr slot) g xs f) (hxs : ∀ x ∈ xs, ¬ x.1.PutsPath)
    (hg : ∀ p, g p ≠ none → ∃ k, p = toCoordPath byteCoord k) :
    ∀ p, f p ≠ none → ∃ k, p = toCoordPath byteCoord k := by
  induction h with
  | nil => exact hg
  | concat _ hx ih =>
    have hbytes := ih fun x hx => hxs x (List.mem_append_left _ hx)
    have hcall := hxs _ (List.mem_append_right _ List.mem_cons_self)
    cases hx with
    | call hm hr =>
      intro p hp
      rcases onMap_ne_none hp with hold | ⟨v, rfl⟩
      · exact hbytes p hold
      · exact put_named hm hcall
    | full => exact hbytes
    | insert => exact hbytes
    | get => exact hbytes
    | remove => exact hbytes
    | len => exact hbytes
    | isEmpty => exact hbytes

def takenOn (byteCoord : UInt8 → Coord) (fromStr : String → Option (CoordKey N))
    (cs : List (KeyCall N)) : List (CoordPath N) := takenBy (cs.filterMap (KeyCall.onPaths byteCoord fromStr))

theorem run_takes (hfrom : Converts fromStr) (hfail : NeverFails σ) (hN : 0 < N)
    (h : Spans slot ([] : List (CoordPath N)) st) (cs : List (KeyCall N)) :
    Spans slot (takenOn byteCoord fromStr cs) (run (KeyCall.perform byteCoord fromStr) cs st).2 := by
  induction cs using List.reverseRecOn with
  | nil => exact h
  | append_singleton cs c ih =>
    rw [run_append, takenOn, List.filterMap_append]
    change Spans slot _ (c.perform byteCoord fromStr _).2
    cases hc : c.onPaths byteCoord fromStr with
    | none =>
      rw [List.filterMap_cons_none hc, perform_aside hc, List.filterMap_nil, List.append_nil]
      exact ih
    | some m =>
      rw [List.filterMap_cons_some hc, (perform_alike hfrom hc _).2, List.filterMap_nil,
        takenBy_concat]
      exact spans_perform hfail hN ih (.map m)

/-- What the calls of both surfaces see of a store. -/
structure KeyRun (byteCoord : UInt8 → Coord) (fromStr : String → Option (CoordKey N)) (slot : ℕ)
    (xs : List (KeyCall N × KeyReply N)) (st : CoordMapStore 64 N σ) (f : PathMap N)
    (ps : List (CoordPath N)) (es : List (CoordKey N × Bytes)) : Prop where
  served : Allowed (Serves byteCoord fromStr slot) (fun _ => none) xs f
  /-- A further call on a key has the outcome of the call on its path, and leaves its store. -/
  alike : ∀ (c : KeyCall N) (m : MapCall N), c.onPaths byteCoord fromStr = some m →
    SameOutcome c.operation (c.perform byteCoord fromStr st) (m.perform st)
  /-- A further insertion is refused for lack of room only if it and the paths put since the
  last clear need more than there is; the error names the bump pointer. -/
  refused : ∀ (c : KeyCall N) p v b, c.onPaths byteCoord fromStr = some (.put p v) →
    Alike c.operation (c.perform byteCoord fromStr st).1 (overflowAt b) →
    b = (c.perform byteCoord fromStr st).2.mount.strategy.bump ∧ 2 ^ 64 ≤ b + max nodeSpan slot ∧
      2 ^ 64 ≤ areaNeed slot (takenOn byteCoord fromStr (xs.map Prod.fst) ++ [p])
  enumerated : (answer entries st).1 = .ok es
  listing : Listing f ps es
  /-- The key of an entry names it exactly if its coordinates are bytes. -/
  named : ∀ p ∈ ps, toCoordPath byteCoord (projectByteKey p) = p ↔ ∀ c ∈ p.coords, c.val < 256
  /-- Calls on byte keys alone make a map of byte keys, enumerated in byte order. -/
  bytes : (∀ x ∈ xs, ¬ x.1.PutsPath) →
    (es.Pairwise fun e e' => List.Lex (· < ·) e.1.bytes e'.1.bytes) ∧
      ∀ k v, (k, v) ∈ es ↔ f (toCoordPath byteCoord k) = some v

/-- A call on a key that is refused for lack of room is a put that is refused. -/
theorem refused_alike (hfrom : Converts fromStr) (hfail : NeverFails σ) (hN : 0 < N)
    {ps : List (CoordPath N)} (hback : Backs slot st f) (hspans : Spans slot ps st)
    {c : KeyCall N} {p : CoordPath N} {v : Value} {b : ℕ}
    (hc : c.onPaths byteCoord fromStr = some (.put p v))
    (hr : Alike c.operation (c.perform byteCoord fromStr st).1 (overflowAt b)) :
    b = (c.perform byteCoord fromStr st).2.mount.strategy.bump ∧ 2 ^ 64 ≤ b + max nodeSpan slot ∧
      2 ^ 64 ≤ areaNeed slot (ps ++ [p]) := by
  obtain ⟨halike, hstate⟩ := perform_alike hfrom hc st
  have hreply := halike.unique hr
  rcases perform_backs hfail hN hback (.put p v) with ⟨hserved, -⟩ | ⟨hrefused, -⟩
  · rw [hreply, MapCall.onMap] at hserved
    split at hserved <;> cases hserved
  · have hbump := hreply.symm.trans hrefused.reply
    cases hbump
    obtain ⟨p', v', hput, hfit⟩ := hrefused.put
    cases hput
    refine ⟨by rw [hstate], hrefused.full, need_of_refused hfail hN hspans hfit ?_⟩
    rw [hrefused.reply]
    rfl

theorem byte_keys_are_paths (hfail : NeverFails σ) (hN : 0 < N)
    (hfrom : Converts fromStr) (hindex : ∀ b, (byteCoord b).val = b.toNat) {o : σ}
    (ho : ByteOrigin.bytes o = []) (d : SlotSize) :
    ∃ st : CoordMapStore 64 N σ, CoordMapStore.new o d.val = .ok st ∧ ∀ cs : List (KeyCall N),
      ∃ f ps es, KeyRun byteCoord fromStr d.val
        (cs.zip (run (KeyCall.perform byteCoord fromStr) cs st).1)
        (run (KeyCall.perform byteCoord fromStr) cs st).2 f ps es := by
  obtain ⟨st, hnew, hback⟩ := backs_new (N := N) hN ho d
  obtain ⟨st₀, hnew₀, hspans⟩ := spans_new (N := N) hN ho d
  cases hnew.symm.trans hnew₀
  have hstep : ∀ (c : KeyCall N) (st : CoordMapStore 64 N σ) f, Backs d.val st f →
      Served byteCoord fromStr d.val f c st := fun c _ _ h => call_served hfrom hfail hN h c
  refine ⟨st, hnew, fun cs => ?_⟩
  obtain ⟨f, hallowed, hback'⟩ := allowed_of_run hstep hback cs
  obtain ⟨ps, es, henum, hlisting⟩ := listing_backs hfail hN hback'
  have hspans' : Spans d.val (takenOn byteCoord fromStr cs)
      (run (KeyCall.perform byteCoord fromStr) cs st).2 := run_takes hfrom hfail hN hspans cs
  refine ⟨f, ps, es, hallowed, fun c m hm => perform_alike hfrom hm _, ?_, henum, hlisting,
    fun p _ => project_faithful_iff hindex p, ?_⟩
  · intro c p v b hc hr
    rw [List.map_fst_zip (by simp)]
    exact refused_alike hfrom hfail hN hback' hspans' hc hr
  · intro hcs
    refine hlisting.bytes hindex (allowed_bytes hallowed hcs ?_)
    exact fun p hp => absurd rfl hp

def bytesKey (N : ℕ) (key : String) : Option (CoordKey N) :=
  if h : (asBytes key).length = N then some ⟨asBytes key, h⟩ else none

theorem bytesKey_eq_some {key : String} {ck : CoordKey N} :
    bytesKey N key = some ck ↔ ck.bytes = asBytes key := by
  rw [bytesKey]
  split
  · next h =>
    rw [Option.some.injEq, CoordKey.ext_iff]
    exact eq_comm
  · next h =>
    refine iff_of_false (by simp) ?_
    intro hbytes
    rw [← hbytes, ck.length_bytes] at h
    exact h rfl

theorem byte_keys_are_paths_ideal :
    ∃ st : CoordMapStore 64 3 IdealOrigin, CoordMapStore.new ⟨[]⟩ 64 = .ok st ∧
      ∀ cs : List (KeyCall 3), ∃ f ps es, KeyRun indexCoord (bytesKey 3) 64
        (cs.zip (run (KeyCall.perform indexCoord (bytesKey 3)) cs st).1)
        (run (KeyCall.perform indexCoord (bytesKey 3)) cs st).2 f ps es :=
  byte_keys_are_paths IdealOrigin.neverFails (by decide) (fun _ _ => bytesKey_eq_some)
    val_indexCoord rfl ⟨64, by decide⟩

end Chton.ByteKeyMaps
