import ProtoIdl.Proofs.Token.Utf8

/-!
# The scanner of bytes

The scanner of bytes answers what the scanner of characters answers, call by call, and stands
between the same two characters after each call.  `Mirrors` is the relation that the calls
keep.  Within a call the position may be in the middle of a character; every loop then goes on
over the rest of the character, since none of its bytes is of a class that the loop asks for
(`Mirrors.pass`).

So the position is a place between two characters after any number of calls, the line counts
the line feeds before it, and every call but the last ones moves on.
-/

namespace ProtoIdl
namespace ByteScanner

open Utf8

variable {source : String} {bytes : ByteScanner} {scanner : Scanner} {text rest : List Char}
  {c : Char} {line : Nat}

/-- The scanner of bytes is in the source after some characters, where the scanner of
characters is, and the line counts the line feeds in them. -/
structure Stands (source : String) (bytes : ByteScanner) (before : List Char)
    (scanner : Scanner) : Prop where
  source_eq : bytes.source = source
  text_eq : source.toList = before ++ scanner.rest
  position_eq : bytes.position = (utf8 before).length
  line_eq : bytes.line = scanner.line
  feeds_eq : scanner.line = 1 + Scanner.lineFeeds before

/-- Both scanners are at the same place in the source. -/
def Mirrors (source : String) (bytes : ByteScanner) (scanner : Scanner) : Prop :=
  ∃ before, Stands source bytes before scanner

/-! ## The next byte -/

/-- Every mark is a character of one byte. -/
theorem toNat_lt_of_isMark (hMark : Token.isMark c = true) : c.toNat < 0x80 := by
  have hLow : Token.marks.all (fun mark => mark.toNat < 0x80) = true := by decide
  have hMem : c ∈ Token.marks := List.contains_iff_mem.mp hMark
  exact of_decide_eq_true (List.all_eq_true.mp hLow c hMem)

/-- One character is another as far as the characters of one byte go. -/
def SameClass (d c : Char) : Prop :=
  ∀ e : Char, e.toNat < 0x80 → (d = e ↔ c = e)

namespace SameClass

variable {d : Char}

theorem isSpace_eq (hSame : SameClass d c) : Scanner.isSpace d = Scanner.isSpace c := by
  rw [Bool.eq_iff_iff]
  simp only [Scanner.isSpace, Bool.or_eq_true, beq_iff_eq, hSame ' ' (by decide),
    hSame '\t' (by decide), hSame '\n' (by decide), hSame '\x0c' (by decide),
    hSame '\r' (by decide)]

theorem isQuote_eq (hSame : SameClass d c) : Token.isQuote d = Token.isQuote c := by
  rw [Bool.eq_iff_iff]
  simp only [Token.isQuote, Bool.or_eq_true, beq_iff_eq, hSame '"' (by decide),
    hSame '\'' (by decide)]

theorem isMark_eq (hSame : SameClass d c) : Token.isMark d = Token.isMark c := by
  rw [Bool.eq_iff_iff]
  constructor
  · intro hMark
    rwa [(hSame d (toNat_lt_of_isMark hMark)).mp rfl]
  · intro hMark
    rwa [(hSame c (toNat_lt_of_isMark hMark)).mpr rfl]

theorem of_high (hD : 0x80 ≤ d.toNat) (hC : 0x80 ≤ c.toNat) : SameClass d c := by
  intro e hLow
  constructor
  · rintro rfl
    omega
  · rintro rfl
    omega

end SameClass

theorem peekAt?_eq (bytes : ByteScanner) (offset : Nat) :
    bytes.peekAt? offset = (bytes.bytes.drop bytes.position)[offset]?.map Char.ofUInt8 := by
  rw [peekAt?, List.getElem?_drop]

theorem peek?_eq (bytes : ByteScanner) :
    bytes.peek? = (bytes.bytes.drop bytes.position).head?.map Char.ofUInt8 := by
  rw [peek?, peekAt?_eq, List.head?_eq_getElem?]

/-- The next byte is the next character as far as the characters of one byte go. -/
theorem exists_head?_utf8 (c : Char) (rest : List Char) :
    ∃ d, (utf8 (c :: rest)).head?.map Char.ofUInt8 = some d ∧ SameClass d c := by
  by_cases hLow : c.toNat < 0x80
  · refine ⟨c, ?_, fun e _ => Iff.rfl⟩
    rw [utf8_cons, utf8EncodeChar_of_lt hLow]
    simp [ofUInt8_ofNat hLow]
  · have hHigh : 0x80 ≤ c.toNat := Nat.le_of_not_lt hLow
    have hBytes := le_of_mem_utf8EncodeChar hHigh
    have hSome : String.utf8EncodeChar c ≠ [] := by
      rw [← List.length_pos_iff, String.length_utf8EncodeChar]
      exact c.utf8Size_pos
    obtain ⟨b, run, hRun⟩ := List.exists_cons_of_ne_nil hSome
    refine ⟨Char.ofUInt8 b, by simp [hRun], .of_high ?_ hHigh⟩
    rw [toNat_ofUInt8]
    exact hBytes b (by simp [hRun])

/-- A character of one byte is the next byte just if it is the next character. -/
theorem head?_utf8_iff (text : List Char) {e : Char} (hLow : e.toNat < 0x80) :
    (utf8 text).head?.map Char.ofUInt8 = some e ↔ text.head? = some e := by
  cases text with
  | nil => simp
  | cons c rest =>
      obtain ⟨d, hHead, hSame⟩ := exists_head?_utf8 c rest
      rw [hHead, List.head?_cons, Option.some_inj, Option.some_inj]
      exact hSame e hLow

namespace Mirrors

/-- The bytes ahead are those of the characters ahead. -/
theorem drop_eq (hMirrors : Mirrors source bytes scanner) :
    bytes.bytes.drop bytes.position = utf8 scanner.rest := by
  obtain ⟨before, hSource, hText, hPosition, -, -⟩ := hMirrors
  rw [ByteScanner.bytes, toList_data_toByteArray, hSource, hText, hPosition, utf8_append,
    List.drop_left]

theorem peek?_nil (hMirrors : Mirrors source bytes ⟨[], line⟩) : bytes.peek? = none := by
  rw [peek?_eq, hMirrors.drop_eq]
  rfl

theorem exists_peek? (hMirrors : Mirrors source bytes ⟨c :: rest, line⟩) :
    ∃ d, bytes.peek? = some d ∧ SameClass d c := by
  rw [peek?_eq, hMirrors.drop_eq]
  exact exists_head?_utf8 c rest

theorem peek?_iff (hMirrors : Mirrors source bytes scanner) {e : Char} (hLow : e.toNat < 0x80) :
    bytes.peek? = some e ↔ scanner.rest.head? = some e := by
  rw [peek?_eq, hMirrors.drop_eq]
  exact head?_utf8_iff scanner.rest hLow

/-- The byte after a character of one byte. -/
theorem peekAt?_one_iff (hMirrors : Mirrors source bytes ⟨c :: rest, line⟩)
    (hFirst : c.toNat < 0x80) {e : Char} (hLow : e.toNat < 0x80) :
    bytes.peekAt? 1 = some e ↔ rest.head? = some e := by
  rw [peekAt?_eq, hMirrors.drop_eq, utf8_cons, utf8EncodeChar_of_lt hFirst, List.singleton_append,
    List.getElem?_cons_succ, ← List.head?_eq_getElem?]
  exact head?_utf8_iff rest hLow

/-! ## One character -/

/-- Moving on by the bytes of a character. -/
theorem skip (hMirrors : Mirrors source bytes ⟨c :: rest, line⟩) (hFeed : c ≠ '\n') :
    Mirrors source (bytes.skip (String.utf8EncodeChar c).length) ⟨rest, line⟩ := by
  obtain ⟨before, hSource, hText, hPosition, hLine, hFeeds⟩ := hMirrors
  refine ⟨before ++ [c], hSource, ?_, ?_, hLine, ?_⟩
  · rw [hText]
    simp
  · simp [ByteScanner.skip, hPosition]
  · dsimp only at hFeeds ⊢
    rw [hFeeds, Scanner.lineFeeds_append, Scanner.lineFeeds_cons_of_ne hFeed]
    rfl

/-- Moving over a character of one byte. -/
theorem advance (hMirrors : Mirrors source bytes ⟨c :: rest, line⟩) (hLow : c.toNat < 0x80) :
    Mirrors source bytes.advance ⟨rest, Scanner.lineAfter line c⟩ := by
  have hPeek : bytes.peek? = some c := (hMirrors.peek?_iff hLow).mpr rfl
  obtain ⟨before, hSource, hText, hPosition, hLine, hFeeds⟩ := hMirrors
  rw [ByteScanner.advance, hPeek]
  refine ⟨before ++ [c], hSource, ?_, ?_, ?_, ?_⟩
  · rw [hText]
    simp
  · simp [hPosition, utf8EncodeChar_of_lt hLow]
  · dsimp only at hLine ⊢
    rw [hLine]
  · have hCons := Scanner.lineFeeds_cons c [] line
    dsimp only at hFeeds ⊢
    rw [Scanner.lineFeeds_append]
    rw [Scanner.lineFeeds_nil] at hCons
    omega

end Mirrors

section Pass

variable {α : Type} {f : ByteScanner → α}

/-- What goes on over each byte of the second half goes on over a run of them. -/
theorem eq_skip_of_high
    (hStep : ∀ bytes c, bytes.peek? = some c → 0x80 ≤ c.toNat → f bytes = f bytes.advance)
    {run tail : List UInt8} (hRun : ∀ b ∈ run, 0x80 ≤ b.toNat)
    (hAhead : bytes.bytes.drop bytes.position = run ++ tail) :
    f bytes = f (bytes.skip run.length) := by
  induction run generalizing bytes with
  | nil => rfl
  | cons b run ih =>
      have hByte := hRun b (by simp)
      have hPeek : bytes.peek? = some (Char.ofUInt8 b) := by
        rw [peek?_eq, hAhead]
        rfl
      have hFeed : Char.ofUInt8 b ≠ '\n' := by
        intro hSame
        rw [← toNat_ofUInt8, hSame] at hByte
        revert hByte
        decide
      have hAdvance : bytes.advance = bytes.skip 1 := by
        rw [advance, hPeek]
        simp [ByteScanner.skip, Scanner.lineAfter, hFeed]
      have hRest : (bytes.skip 1).bytes.drop (bytes.skip 1).position = run ++ tail := by
        have hTail := congrArg List.tail hAhead
        rwa [List.tail_drop] at hTail
      rw [hStep bytes _ hPeek hByte, hAdvance,
        ih (fun b hMem => hRun b (List.mem_cons_of_mem _ hMem)) hRest]
      congr 1
      simp only [ByteScanner.skip, List.length_cons]
      congr 1
      omega

/-- A loop that goes on over bytes of the second half comes to the next character, from the
byte after the first byte of a character. -/
theorem Mirrors.pass
    (hStep : ∀ bytes c, bytes.peek? = some c → 0x80 ≤ c.toNat → f bytes = f bytes.advance)
    (hMirrors : Mirrors source bytes ⟨c :: rest, line⟩) :
    ∃ later, f bytes.advance = f later ∧
      Mirrors source later ⟨rest, Scanner.lineAfter line c⟩ := by
  by_cases hLow : c.toNat < 0x80
  · exact ⟨bytes.advance, rfl, hMirrors.advance hLow⟩
  · have hHigh : 0x80 ≤ c.toNat := Nat.le_of_not_lt hLow
    have hFeed : c ≠ '\n' := by
      rintro rfl
      exact hLow (by decide)
    obtain ⟨d, hPeek, hSame⟩ := hMirrors.exists_peek?
    have hByte : 0x80 ≤ d.toNat := by
      refine Nat.le_of_not_lt fun hSmall => hLow ?_
      rwa [(hSame d hSmall).mp rfl]
    have hSkip := eq_skip_of_high hStep (le_of_mem_utf8EncodeChar hHigh) hMirrors.drop_eq
    refine ⟨bytes.skip (String.utf8EncodeChar c).length, ?_, ?_⟩
    · rw [← hSkip, hStep bytes d hPeek hByte]
    · rw [Scanner.lineAfter, if_neg hFeed]
      exact hMirrors.skip hFeed

end Pass

end ByteScanner
end ProtoIdl
