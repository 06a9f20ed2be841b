/-
Oxiscale/Bytes.lean

Byte strings and the text they hold.
-/
import Mathlib.Data.List.Basic

namespace Oxiscale

abbrev Bytes := List UInt8

/-- `String::into_bytes`. -/
def intoBytes (s : String) : Bytes := s.toByteArray.data.toList

/-- `str::from_utf8`. -/
def fromUtf8 (bytes : Bytes) : Option String := String.fromUTF8? ⟨bytes.toArray⟩

@[simp] theorem fromUtf8_intoBytes (s : String) : fromUtf8 (intoBytes s) = some s := by
  have h := s.isValidUTF8
  simp [fromUtf8, intoBytes, String.fromUTF8?, String.fromUTF8, h]

theorem intoBytes_ofList (cs : List Char) :
    intoBytes (String.ofList cs) = cs.flatMap String.utf8EncodeChar := by
  rw [intoBytes, String.toByteArray_ofList, List.utf8Encode, List.toList_data_toByteArray]

/-- A character takes four bytes at most. -/
theorem length_intoBytes_le (s : String) : (intoBytes s).length ≤ 4 * s.toList.length := by
  obtain ⟨l, rfl⟩ : ∃ l, s = String.ofList l := ⟨s.toList, String.ofList_toList.symm⟩
  rw [intoBytes, String.toByteArray_ofList, String.toList_ofList, Array.length_toList]
  show l.utf8Encode.size ≤ 4 * l.length
  induction l with
  | nil => exact Nat.le_refl 0
  | cons c l ih =>
      have hc : [c].utf8Encode.size ≤ 4 := by
        rw [List.utf8Encode_singleton, List.size_toByteArray, String.length_utf8EncodeChar]
        exact c.utf8Size_le_four
      rw [List.utf8Encode_cons, ByteArray.size_append, List.length_cons]
      omega

end Oxiscale
