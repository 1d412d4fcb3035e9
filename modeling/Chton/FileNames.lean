import Chton.CoordMapProgram
import Chton.TextBytes

/-!
# File names as keys, and files as values

The key of a path holds the byte length on axis 0 and the bytes of the path behind it,
padded with zeros; it exists for paths of at most `N - 1` bytes. The value of a file
repeats the path in front of the content, so that a listing can read the names back.
-/

namespace Chton.FileNames
open ByteRegions LittleEndianWords Origins TextBytes TreeStrategyProgram CoordMapProgram

/-- `MAX_IO_DEPTH`: the source asserts `1 ≤ N ≤ MAX_IO_DEPTH` when `new` is compiled. -/
abbrev maxIoDepth : ℕ := 256

inductive ValueError where
  | tooShort
  | pathTruncated
  | pathNotUtf8
  deriving DecidableEq, Repr

inductive KeyError where
  | emptyPath
  | overCapacity (len capacity : ℕ)
  | overPrefix (len : ℕ)
  deriving DecidableEq, Repr

/-- `[u32le path_len][path][content]`. -/
def encodeValue (path : String) (content : Bytes) : Bytes :=
  encode 4 (asBytes path).length ++ asBytes path ++ content

def decodeValue (value : Bytes) : Except ValueError (String × Bytes) :=
  if value.length < 4 then .error .tooShort else
  let pathLen := decode (value.take 4)
  if value.length < 4 + pathLen then .error .pathTruncated else
  match fromUtf8 ((value.drop 4).take pathLen) with
  | none => .error .pathNotUtf8
  | some path => .ok (path, value.drop (4 + pathLen))

/-- Axis 0 is the length, the next axes are the bytes, the others stay zero. -/
def keyOf (N : ℕ) (path : String) : Except KeyError (CoordKey N) :=
  let bytes := asBytes path
  if hzero : bytes.length = 0 then .error .emptyPath else
  if hcap : bytes.length > N - 1 then .error (.overCapacity bytes.length (N - 1)) else
  if bytes.length < 256 then
    .ok ⟨UInt8.ofNat bytes.length :: (bytes ++ List.replicate (N - 1 - bytes.length) 0), by
      rw [List.length_cons, List.length_append, List.length_replicate]
      omega⟩
  else .error (.overPrefix bytes.length)

/-- `CoordKey::to_coord_path`, which takes each byte to a coordinate. -/
def toCoordPath {N : ℕ} (byteCoord : UInt8 → Coord) (key : CoordKey N) : CoordPath N :=
  ⟨key.bytes.map byteCoord, by rw [List.length_map, key.length_bytes]⟩

/-- The table that gives a byte the coordinate of that index. -/
def indexCoord (b : UInt8) : Coord := Fin.ofNat nValid b.toNat

@[simp] theorem val_indexCoord (b : UInt8) : (indexCoord b).val = b.toNat := by
  have hb := b.toNat_lt
  have hvalid : nValid = 11172 := rfl
  rw [indexCoord, Fin.val_ofNat, Nat.mod_eq_of_lt (by omega)]

theorem indexCoord_injective : Function.Injective indexCoord := by
  intro a b hab
  have hval := congrArg Fin.val hab
  rw [val_indexCoord, val_indexCoord] at hval
  exact UInt8.toNat_inj.mp hval

def Nameable (N : ℕ) (path : String) : Prop :=
  1 ≤ (asBytes path).length ∧ (asBytes path).length ≤ N - 1

variable {N : ℕ} {path : String}

theorem Nameable.length_lt (h : Nameable N path) (hN : N ≤ maxIoDepth) :
    (asBytes path).length < 256 := by
  have hcap := h.2
  have hpos := h.1
  have hdepth : maxIoDepth = 256 := rfl
  omega

theorem keyOf_nameable (hN : N ≤ maxIoDepth) (h : Nameable N path) :
    ∃ key : CoordKey N, keyOf N path = .ok key ∧ key.bytes =
      UInt8.ofNat (asBytes path).length ::
        (asBytes path ++ List.replicate (N - 1 - (asBytes path).length) 0) := by
  rw [keyOf, dif_neg (Nat.ne_of_gt h.1), dif_neg (Nat.not_lt.mpr h.2), if_pos (h.length_lt hN)]
  exact ⟨_, rfl, rfl⟩

theorem keyOf_not_nameable (h : ¬ Nameable N path) : ∃ e, keyOf N path = .error e := by
  by_cases hzero : (asBytes path).length = 0
  · exact ⟨_, dif_pos hzero⟩
  · have hcap : (asBytes path).length > N - 1 := by
      rw [Nameable] at h
      omega
    rw [keyOf, dif_neg hzero, dif_pos hcap]
    exact ⟨_, rfl⟩

theorem nameable_of_keyOf {k : CoordKey N} (h : keyOf N path = .ok k) : Nameable N path := by
  by_contra hname
  obtain ⟨e, he⟩ := keyOf_not_nameable hname
  exact nomatch he.symm.trans h

theorem bytes_of_keyOf (hN : N ≤ maxIoDepth) {k : CoordKey N} (h : keyOf N path = .ok k) :
    k.bytes = UInt8.ofNat (asBytes path).length ::
      (asBytes path ++ List.replicate (N - 1 - (asBytes path).length) 0) := by
  obtain ⟨key, hkey, hshape⟩ := keyOf_nameable hN (nameable_of_keyOf h)
  cases hkey.symm.trans h
  exact hshape

/-- The length in front of the bytes tells the padding from the path. -/
theorem eq_of_keyOf_eq (hN : N ≤ maxIoDepth) {a b : String} {k : CoordKey N}
    (ha : keyOf N a = .ok k) (hb : keyOf N b = .ok k) : a = b := by
  have hshape := (bytes_of_keyOf hN ha).symm.trans (bytes_of_keyOf hN hb)
  obtain ⟨hlength, hrest⟩ := List.cons.inj hshape
  have hlen : (asBytes a).length = (asBytes b).length := by
    have htoNat := congrArg UInt8.toNat hlength
    rw [UInt8.toNat_ofNat_of_lt' ((nameable_of_keyOf ha).length_lt hN),
      UInt8.toNat_ofNat_of_lt' ((nameable_of_keyOf hb).length_lt hN)] at htoNat
    exact htoNat
  apply asBytes_inj
  exact (List.append_inj hrest hlen).1

theorem eq_of_toCoordPath_eq {byteCoord : UInt8 → Coord} (hinj : Function.Injective byteCoord)
    {k l : CoordKey N} (h : toCoordPath byteCoord k = toCoordPath byteCoord l) : k = l := by
  apply CoordKey.ext
  exact List.map_injective_iff.mpr hinj (congrArg CoordPath.coords h)

theorem length_encodeValue (path : String) (content : Bytes) :
    (encodeValue path content).length = 4 + (asBytes path).length + content.length := by
  rw [encodeValue, List.length_append, List.length_append, length_encode]

theorem decodeValue_encodeValue {path : String} (h : (asBytes path).length < 2 ^ 32)
    (content : Bytes) : decodeValue (encodeValue path content) = .ok (path, content) := by
  have hlen := length_encodeValue path content
  have htake : (encodeValue path content).take 4 = encode 4 (asBytes path).length := by
    rw [encodeValue, List.append_assoc]
    exact List.take_left' (length_encode _ _)
  have hdrop : (encodeValue path content).drop 4 = asBytes path ++ content := by
    rw [encodeValue, List.append_assoc]
    exact List.drop_left' (length_encode _ _)
  have hcontent : (encodeValue path content).drop (4 + (asBytes path).length) = content := by
    rw [← List.drop_drop, hdrop]
    exact List.drop_left' rfl
  have hdecode : decode (encode 4 (asBytes path).length) = (asBytes path).length :=
    decode_encode (h.trans_le (by decide))
  rw [decodeValue, if_neg (by omega)]
  simp only [htake, hdecode]
  rw [if_neg (by omega), hdrop, List.take_left' rfl, fromUtf8_asBytes]
  simp only [hcontent]

end Chton.FileNames
