import Mathlib.Data.Nat.Notation

/-!
# Strings as byte strings

A string is a valid UTF-8 byte string; encoding it and checking the bytes again gives the
string back.
-/

namespace Chton.TextBytes

/-- `str::as_bytes`. -/
def asBytes (s : String) : List UInt8 := s.toByteArray.data.toList

/-- `str::from_utf8`. -/
def fromUtf8 (bytes : List UInt8) : Option String := String.fromUTF8? ⟨bytes.toArray⟩

/-- `str::starts_with`. -/
def startsWith (s pre : String) : Bool := (asBytes pre).isPrefixOf (asBytes s)

theorem asBytes_inj {a b : String} (h : asBytes a = asBytes b) : a = b := by
  apply String.toByteArray_inj.mp
  apply ByteArray.ext
  exact Array.toList_inj.mp h

@[simp] theorem fromUtf8_asBytes (s : String) : fromUtf8 (asBytes s) = some s := by
  have hbytes : (⟨(asBytes s).toArray⟩ : ByteArray) = s.toByteArray := rfl
  rw [fromUtf8, hbytes, String.fromUTF8?, dif_pos s.isValidUTF8]
  rfl

/-- A prefix in bytes is a prefix in characters. -/
theorem prefix_of_startsWith {s pre : String} (h : startsWith s pre) :
    pre.toList <+: s.toList := by
  obtain ⟨rest, hrest⟩ := List.isPrefixOf_iff_prefix.mp h
  apply List.isPrefix_of_utf8Encode_append_eq_utf8Encode ⟨rest.toArray⟩
  rw [String.utf8Encode_toList, String.utf8Encode_toList]
  apply ByteArray.ext
  apply Array.toList_inj.mp
  simpa [asBytes] using hrest

end Chton.TextBytes
