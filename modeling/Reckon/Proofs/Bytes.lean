import Reckon.Proofs.Spelling

namespace Reckon

/-! The characters behind the bytes of a text.

Positions count bytes.  Every byte belongs to one character, a character of a
single byte is that byte, and two texts with the same first bytes have the same
first characters wherever a character of one of them ends.
-/

variable {text other : String} {before after head tail : List Char} {character : Char} {index : Nat}

theorem toByteArray_toList (text : String) : text.toByteArray = text.toList.utf8Encode := by
  rw [← String.toByteArray_ofList, String.ofList_toList]

theorem size_utf8Encode (characters : List Char) :
    characters.utf8Encode.size = byteLength characters := by
  rw [← String.toByteArray_ofList, String.size_toByteArray, ← byteLength_toList,
    String.toList_ofList]

theorem exists_character {characters : List Char} (inside : index < byteLength characters) :
    ∃ before character after, characters = before ++ character :: after ∧
      byteLength before ≤ index ∧ index < byteLength before + character.utf8Size := by
  induction characters generalizing index with
  | nil => exact absurd inside (Nat.not_lt_zero index)
  | cons first others ih =>
      rw [byteLength] at inside
      by_cases here : index < first.utf8Size
      · exact ⟨[], first, others, rfl, Nat.zero_le _, by simpa [byteLength] using here⟩
      · obtain ⟨before, character, after, rfl, lower, upper⟩ :=
          @ih (index - first.utf8Size) (by omega)
        refine ⟨first :: before, character, after, rfl, ?_, ?_⟩ <;> rw [byteLength] <;> omega

theorem byte_of_split (split : text.toList = before ++ character :: after)
    (single : character.utf8Size = 1) :
    text.toByteArray[byteLength before]? = some character.val.toUInt8 := by
  have bytes : text.toByteArray =
      before.utf8Encode ++ ([character.val.toUInt8].toByteArray ++ after.utf8Encode) := by
    rw [toByteArray_toList, split, List.utf8Encode_append, List.utf8Encode_cons,
      List.utf8Encode_singleton, String.utf8EncodeChar_eq_singleton single]
  have size := size_utf8Encode before
  have inside : byteLength before < text.toByteArray.size := by
    rw [bytes, ByteArray.size_append, ByteArray.size_append, List.size_toByteArray, size,
      List.length_singleton]
    omega
  rw [getElem?_pos text.toByteArray _ inside]
  simp only [bytes, ← size]
  rw [ByteArray.getElem_append_right (Nat.le_refl _), ByteArray.getElem_append_left (by simp)]
  simp

theorem byte_of_isDigit {character : Char} (digit : character.isDigit = true) :
    '0'.val.toUInt8 ≤ character.val.toUInt8 ∧ character.val.toUInt8 ≤ '9'.val.toUInt8 := by
  simp only [Char.isDigit, Bool.and_eq_true, decide_eq_true_eq, ge_iff_le,
    UInt32.le_iff_toNat_le] at digit
  have bounds : 48 ≤ character.val.toNat ∧ character.val.toNat ≤ 57 := digit
  simp only [UInt8.le_iff_toNat_le, UInt32.toNat_toUInt8]
  change 48 ≤ character.val.toNat % 256 ∧ character.val.toNat % 256 ≤ 57
  omega

/-- The first bytes of a text, up to where one of its characters ends, are
decoded alike in every text that begins with them. -/
theorem exists_append_of_bytes (split : text.toList = head ++ tail)
    (same : other.toByteArray.extract 0 (byteLength head) =
      text.toByteArray.extract 0 (byteLength head)) : ∃ rest, other.toList = head ++ rest := by
  have size := size_utf8Encode head
  have first : text.toByteArray.extract 0 (byteLength head) = head.utf8Encode := by
    rw [toByteArray_toList, split, List.utf8Encode_append]
    exact ByteArray.extract_append_eq_left size.symm
  rw [first, toByteArray_toList] at same
  have fits : byteLength head ≤ other.toList.utf8Encode.size := by
    have sizes := congrArg ByteArray.size same
    rw [ByteArray.size_extract, size] at sizes
    omega
  have whole : head.utf8Encode ++ other.toList.utf8Encode.extract (byteLength head)
      other.toList.utf8Encode.size = other.toList.utf8Encode := by
    rw [← same, ← ByteArray.extract_eq_extract_append_extract _ (Nat.zero_le _) fits,
      ByteArray.extract_zero_size]
  obtain ⟨rest, joined⟩ := List.isPrefix_of_utf8Encode_append_eq_utf8Encode _ whole
  exact ⟨rest, joined.symm⟩

theorem isValid_of_split (split : text.toList = head ++ tail) :
    String.Pos.Raw.IsValid text ⟨byteLength head⟩ := by
  refine String.Pos.Raw.isValid_iff_exists_append.mpr ⟨.ofList head, .ofList tail, ?_, ?_⟩
  · rw [← String.ofList_append, ← split, String.ofList_toList]
  · rw [String.rawEndPos, ← byteLength_toList, String.toList_ofList]

end Reckon
