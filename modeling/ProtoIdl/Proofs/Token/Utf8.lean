import ProtoIdl.Proofs.Token.Scanning
import ProtoIdl.Token.Bytes

/-!
# Characters and their bytes

The bytes of a text are those of its characters, one after the other.  A character below `0x80`
is one byte with its value; every byte of another character is `0x80` or more, so that no class
of characters that the scanner asks for has it.  Between two characters a slice can begin and
end, and it is what stands between.
-/

namespace ProtoIdl

/-- The bytes of characters. -/
def utf8 (text : List Char) : List UInt8 :=
  text.flatMap String.utf8EncodeChar

namespace Utf8

@[simp] theorem utf8_nil : utf8 [] = [] := rfl

@[simp] theorem utf8_cons (c : Char) (rest : List Char) :
    utf8 (c :: rest) = String.utf8EncodeChar c ++ utf8 rest := rfl

@[simp] theorem utf8_append (first second : List Char) :
    utf8 (first ++ second) = utf8 first ++ utf8 second :=
  List.flatMap_append

theorem toList_data_toByteArray (source : String) :
    source.toByteArray.data.toList = utf8 source.toList := by
  rw [← String.utf8Encode_toList (b := source), List.utf8Encode, List.data_toByteArray]
  rfl

theorem length_utf8 (text : List Char) :
    (utf8 text).length = (String.ofList text).utf8ByteSize := by
  rw [← String.size_toByteArray, String.toByteArray_ofList, List.utf8Encode, List.size_toByteArray]
  rfl

/-! ## One character -/

/-- A character of the first half of the bytes is one byte. -/
theorem utf8EncodeChar_of_lt {c : Char} (hLow : c.toNat < 0x80) :
    String.utf8EncodeChar c = [UInt8.ofNat c.toNat] := by
  have hVal : c.val.toNat ≤ 127 := Nat.le_of_lt_succ hLow
  rw [String.utf8EncodeChar, if_pos hVal]
  rfl

/-- The bytes of any other character are all in the second half. -/
theorem le_of_mem_utf8EncodeChar {c : Char} (hHigh : 0x80 ≤ c.toNat) :
    ∀ b ∈ String.utf8EncodeChar c, 0x80 ≤ b.toNat := by
  have hVal : ¬c.val.toNat ≤ 127 := Nat.not_le_of_lt hHigh
  intro b hMem
  simp only [String.utf8EncodeChar, if_neg hVal] at hMem
  split at hMem
  · simp only [List.mem_cons, List.not_mem_nil, or_false] at hMem
    rcases hMem with rfl | rfl <;> simp only [UInt8.toNat_ofNat'] <;> omega
  · split at hMem
    · simp only [List.mem_cons, List.not_mem_nil, or_false] at hMem
      rcases hMem with rfl | rfl | rfl <;> simp only [UInt8.toNat_ofNat'] <;> omega
    · simp only [List.mem_cons, List.not_mem_nil, or_false] at hMem
      rcases hMem with rfl | rfl | rfl | rfl <;> simp only [UInt8.toNat_ofNat'] <;> omega

theorem toNat_ofUInt8 (b : UInt8) : (Char.ofUInt8 b).toNat = b.toNat := rfl

/-- The one byte of a character of the first half is read as this character. -/
theorem ofUInt8_ofNat {c : Char} (hLow : c.toNat < 0x80) :
    Char.ofUInt8 (UInt8.ofNat c.toNat) = c := by
  have hSmall : c.toNat < 256 := by omega
  rw [← Char.toNat_inj, toNat_ofUInt8, UInt8.toNat_ofNat', Nat.mod_eq_of_lt hSmall]

/-! ## Positions between characters -/

section Position

variable {source : String} {before middle after : List Char}

/-- The place after some of the characters of a text is no place within a character. -/
theorem isValid_length (hSource : source.toList = before ++ after) :
    String.Pos.Raw.IsValid source ⟨(utf8 before).length⟩ := by
  refine String.Pos.Raw.isValid_iff_exists_append.mpr
    ⟨String.ofList before, String.ofList after, ?_, ?_⟩
  · rw [← String.ofList_append, ← hSource, String.ofList_toList]
  · rw [length_utf8]
    rfl

/-- A slice between two such places has the characters between them. -/
theorem slice?_eq (hSource : source.toList = before ++ (middle ++ after)) :
    ByteScanner.slice? source (utf8 before).length (utf8 (before ++ middle)).length =
      some (String.ofList middle) := by
  have hStart : String.Pos.Raw.IsValid source ⟨(utf8 before).length⟩ := isValid_length hSource
  have hStop : String.Pos.Raw.IsValid source ⟨(utf8 (before ++ middle)).length⟩ :=
    isValid_length (hSource.trans (List.append_assoc before middle after).symm)
  have hOrder : (utf8 before).length ≤ (utf8 (before ++ middle)).length := by simp
  rw [ByteScanner.slice?, dif_pos ⟨hOrder, hStart, hStop⟩]
  congr 1
  rw [← String.toByteArray_inj, String.toByteArray_extract, String.toByteArray_ofList]
  apply ByteArray.ext
  rw [← Array.toList_inj, ByteArray.data_extract, Array.toList_extract, toList_data_toByteArray,
    hSource, List.utf8Encode, List.data_toByteArray]
  simp [utf8, List.extract]

end Position

/-- The line feeds of a text are its bytes with their value. -/
theorem count_utf8 (text : List Char) :
    (utf8 text).count 0x0A = Scanner.lineFeeds text := by
  induction text with
  | nil => rfl
  | cons c rest ih =>
      have hChar : (String.utf8EncodeChar c).count 0x0A = [c].count '\n' := by
        by_cases hLow : c.toNat < 0x80
        · rw [utf8EncodeChar_of_lt hLow]
          by_cases hFeed : c = '\n'
          · subst hFeed
            decide
          · have hByte : UInt8.ofNat c.toNat ≠ 0x0A := by
              intro hSame
              have hChar := congrArg Char.ofUInt8 hSame
              rw [ofUInt8_ofNat hLow] at hChar
              exact hFeed hChar
            simp [hByte, hFeed]
        · have hHigh : 0x80 ≤ c.toNat := Nat.le_of_not_lt hLow
          have hFeed : c ≠ '\n' := by
            rintro rfl
            exact hLow (by decide)
          have hNone : (0x0A : UInt8) ∉ String.utf8EncodeChar c := by
            intro hMem
            have hByte := le_of_mem_utf8EncodeChar hHigh _ hMem
            revert hByte
            decide
          simp [List.count_eq_zero.mpr hNone, hFeed]
      have hCons : Scanner.lineFeeds ([c] ++ rest) = [c].count '\n' + Scanner.lineFeeds rest :=
        List.count_append
      rw [List.singleton_append] at hCons
      rw [utf8_cons, List.count_append, ih, hChar, hCons]

end Utf8
end ProtoIdl
