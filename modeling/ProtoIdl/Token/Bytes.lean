import ProtoIdl.Token.Scanner

/-!
# Scanning the bytes of a text

The scanner as it works on the UTF-8 encoding of a source text.  It looks at single bytes and
moves its position by single bytes, also within a character; only what it reads as a token is
taken out of the text as a slice.  A slice has to begin and to end between two characters: one
that does not is the answer `none`, and there is no way on from it.

The loops of this scanner are those of `Scanner`, which holds characters in place of a
position.
-/

namespace ProtoIdl

/-- A source text, the position of the next byte in it, and the line of that byte. -/
structure ByteScanner where
  source : String
  position : Nat
  line : Nat
  deriving DecidableEq, Repr

namespace ByteScanner

/-- The scanner at the start of a text. -/
def ofText (source : String) : ByteScanner :=
  ⟨source, 0, 1⟩

/-! ## Bytes -/

/-- The bytes of the source text. -/
def bytes (scanner : ByteScanner) : List UInt8 :=
  scanner.source.toByteArray.data.toList

/-- The byte `offset` places ahead, as the character with its value for a code. -/
def peekAt? (scanner : ByteScanner) (offset : Nat) : Option Char :=
  scanner.bytes[scanner.position + offset]?.map Char.ofUInt8

/-- The next byte. -/
def peek? (scanner : ByteScanner) : Option Char :=
  scanner.peekAt? 0

/-- Move on by a number of bytes, none of them a line feed. -/
def skip (scanner : ByteScanner) (count : Nat) : ByteScanner :=
  { scanner with position := scanner.position + count }

/-- Move over the next byte, if there is one. -/
def advance (scanner : ByteScanner) : ByteScanner :=
  match scanner.peek? with
  | none => scanner
  | some c => ⟨scanner.source, scanner.position + 1, Scanner.lineAfter scanner.line c⟩

/-- The text from `start` up to `stop`, if both are between two characters. -/
def slice? (source : String) (start stop : Nat) : Option String :=
  if hBounds : start ≤ stop ∧ String.Pos.Raw.IsValid source ⟨start⟩ ∧
      String.Pos.Raw.IsValid source ⟨stop⟩ then
    some (source.extract (source.pos ⟨start⟩ hBounds.2.1) (source.pos ⟨stop⟩ hBounds.2.2))
  else none

/-- The number of bytes ahead. -/
def left (scanner : ByteScanner) : Nat :=
  scanner.bytes.length - scanner.position

/-- Moving over a byte leaves fewer of them. -/
theorem left_advance_lt {scanner : ByteScanner} {c : Char} (hPeek : scanner.peek? = some c) :
    scanner.advance.left < scanner.left := by
  have hByte := hPeek
  rw [peek?, peekAt?, Option.map_eq_some_iff] at hByte
  obtain ⟨b, hHere, -⟩ := hByte
  obtain ⟨hInside, -⟩ := List.getElem?_eq_some_iff.mp hHere
  simp only [left, bytes, advance, hPeek]
  simp only [bytes, Nat.add_zero] at hInside
  omega

/-- Moving on does not leave more bytes. -/
theorem left_advance_le (scanner : ByteScanner) : scanner.advance.left ≤ scanner.left := by
  cases hPeek : scanner.peek? with
  | none => simp [advance, hPeek]
  | some c => exact Nat.le_of_lt (left_advance_lt hPeek)

theorem left_skip (scanner : ByteScanner) (count : Nat) :
    (scanner.skip count).left = scanner.left - count := by
  simp only [left, bytes, skip]
  omega

/-! ## Gaps -/

/-- Skip the inside of a block comment and its end; whether it has one is the first part of the
answer. -/
def skipComment (scanner : ByteScanner) : Bool × ByteScanner :=
  match _hPeek : scanner.peek? with
  | none => (false, scanner)
  | some c =>
      if c = '*' ∧ scanner.advance.peek? = some '/' then (true, scanner.advance.advance)
      else scanner.advance.skipComment
termination_by scanner.left
decreasing_by exact left_advance_lt _hPeek

/-- Skipping a comment does not leave more bytes. -/
theorem left_skipComment_le (scanner : ByteScanner) :
    scanner.skipComment.2.left ≤ scanner.left := by
  fun_induction skipComment scanner with
  | case1 => exact Nat.le_refl _
  | case2 scanner =>
      exact Nat.le_trans (left_advance_le scanner.advance) (left_advance_le scanner)
  | case3 scanner _ _ _ ih => exact Nat.le_trans ih (left_advance_le scanner)

/-- Skip white space and block comments.  The answer has the line of a comment that does not
end. -/
def skipGap (scanner : ByteScanner) : Option Nat × ByteScanner :=
  match _hPeek : scanner.peek? with
  | none => (none, scanner)
  | some c =>
      if Scanner.isSpace c then scanner.advance.skipGap
      else if c = '/' ∧ scanner.peekAt? 1 = some '*' then
        match _hComment : (scanner.skip 2).skipComment with
        | (false, after) => (some scanner.line, after)
        | (true, after) => after.skipGap
      else (none, scanner)
termination_by scanner.left
decreasing_by
  · exact left_advance_lt _hPeek
  · have hFirst := left_advance_lt _hPeek
    have hAfter := left_skipComment_le (scanner.skip 2)
    rw [_hComment, left_skip] at hAfter
    dsimp only at hAfter
    omega

/-! ## Tokens -/

/-- Move to the end of the line. -/
def skipLine (scanner : ByteScanner) : ByteScanner :=
  match _hPeek : scanner.peek? with
  | none => scanner
  | some c => if c = '\n' then scanner else scanner.advance.skipLine
termination_by scanner.left
decreasing_by exact left_advance_lt _hPeek

/-- Move over the rest of a string literal, up to and including its closing quote; whether it
has one on the line is the first part of the answer.  A backslash takes one byte along. -/
def skipQuoted (quote : Char) (scanner : ByteScanner) : Bool × ByteScanner :=
  match _hPeek : scanner.peek? with
  | none => (false, scanner)
  | some c =>
      if c = '\n' then (false, scanner)
      else if c = '\\' then skipQuoted quote scanner.advance.advance
      else if c = quote then (true, scanner.advance)
      else skipQuoted quote scanner.advance
termination_by scanner.left
decreasing_by
  · exact Nat.lt_of_le_of_lt (left_advance_le _) (left_advance_lt _hPeek)
  · exact left_advance_lt _hPeek

/-- Move to the end of a word. -/
def skipWord (scanner : ByteScanner) : ByteScanner :=
  match _hPeek : scanner.peek? with
  | none => scanner
  | some c =>
      if Scanner.isSpace c || Token.isMark c || Token.isQuote c ||
          (c == '/' && (scanner.peekAt? 1 == some '/' || scanner.peekAt? 1 == some '*')) then
        scanner
      else scanner.advance.skipWord
termination_by scanner.left
decreasing_by exact left_advance_lt _hPeek

/-- The token that is a slice of the text. -/
def sliceToken (start stop : ByteScanner) : Option (Except ParseError (Option Token)) :=
  (slice? start.source start.position stop.position).map fun text => .ok (some text)

/-- Read one token where no gap begins. -/
def readToken (scanner : ByteScanner) : Option (Except ParseError (Option Token)) × ByteScanner :=
  match scanner.peek? with
  | none => (some (.ok none), scanner)
  | some c =>
      if c = '/' ∧ scanner.peekAt? 1 = some '/' then
        let after := scanner.skipLine
        let body := slice? scanner.source (scanner.position + 2) after.position
        (body.map fun body => .ok (some (Scanner.commentToken body.toList)), after)
      else if Token.isQuote c then
        match skipQuoted c scanner.advance with
        | (true, after) => (sliceToken scanner after, after)
        | (false, after) => (some (.error (.lexical after.line .unterminatedLiteral)), after)
      else if Token.isMark c then (some (.ok (some (String.singleton c))), scanner.advance)
      else (sliceToken scanner scanner.skipWord, scanner.skipWord)

/-- Skip a gap and read one token; there is none at the end of the text. -/
def next (scanner : ByteScanner) : Option (Except ParseError (Option Token)) × ByteScanner :=
  match scanner.skipGap with
  | (some opened, after) => (some (.error (.lexical opened .unterminatedComment)), after)
  | (none, after) => after.readToken

/-- The scanner after a number of calls, whatever they answer. -/
def afterCalls (source : String) : Nat → ByteScanner
  | 0 => ofText source
  | calls + 1 => (afterCalls source calls).next.2

end ByteScanner
end ProtoIdl
