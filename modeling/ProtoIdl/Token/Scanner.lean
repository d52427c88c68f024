import ProtoIdl.Error
import ProtoIdl.Text.Blank

/-!
# Scanning source text

A scanner holds the characters that are left and the line they start on.  One
call of `Scanner.next` skips a gap, which is made of white space and block
comments, and reads one token: a line comment, a quoted string, a punctuation
mark, or a word.  A fault leaves the scanner where the reading stopped, so further
calls go on from there.

`Scanner.length_next_lt` says that every call makes progress until the end is
reported.  Hence both `Scanner.tokens`, which stops at the first fault, and
`Scanner.calls`, which goes on, are total.
-/

namespace ProtoIdl

/-- The characters that are left, and the number of the line they start on. -/
structure Scanner where
  rest : List Char
  line : Nat
  deriving DecidableEq, Repr

namespace Scanner

/-- The scanner at the start of a text. -/
def ofText (text : String) : Scanner :=
  ⟨text.toList, 1⟩

/-- Whether a character separates tokens: space, tab, line feed, form feed or
carriage return. -/
def isSpace (c : Char) : Bool :=
  c == ' ' || c == '\t' || c == '\n' || c == '\x0c' || c == '\r'

/-- The line after a character that stands on `line`. -/
def lineAfter (line : Nat) (c : Char) : Nat :=
  if c = '\n' then line + 1 else line

/-! ## Gaps -/

/-- Skip white space and block comments.  The first argument and the first part of
the answer give the line on which a block comment was opened that is still open. -/
def skipGap : Option Nat → List Char → Nat → Option Nat × Scanner
  | opened, [], line => (opened, ⟨[], line⟩)
  | none, '/' :: '*' :: rest, line => skipGap (some line) rest line
  | none, c :: rest, line =>
      if isSpace c then skipGap none rest (lineAfter line c)
      else (none, ⟨c :: rest, line⟩)
  | some _, '*' :: '/' :: rest, line => skipGap none rest line
  | some opened, c :: rest, line => skipGap (some opened) rest (lineAfter line c)

/-- A gap takes characters away and adds none. -/
theorem length_skipGap_le (opened : Option Nat) (text : List Char) (line : Nat) :
    (skipGap opened text line).2.rest.length ≤ text.length := by
  fun_induction skipGap opened text line <;> simp_all only [List.length_cons] <;> omega

/-- A gap that ends inside a block comment has taken the whole text. -/
theorem rest_skipGap_of_open {opened : Option Nat} {text : List Char} {line start : Nat}
    (hOpen : (skipGap opened text line).1 = some start) :
    (skipGap opened text line).2.rest = [] := by
  fun_induction skipGap opened text line <;> simp_all

/-! ## Tokens -/

/-- Read a quoted string after its opening quote, up to and including the closing
one.  A backslash takes the character after it along.  Without a closing quote on
the line there is no string, and the scanner stays where the reading stopped. -/
def readQuoted (quote : Char) : List Char → Nat → Option (List Char) × Scanner
  | [], line => (none, ⟨[], line⟩)
  | ['\\'], line => (none, ⟨[], line⟩)
  | '\\' :: c :: rest, line =>
      match readQuoted quote rest (lineAfter line c) with
      | (text, scanner) => (text.map fun text => '\\' :: c :: text, scanner)
  | c :: rest, line =>
      if c = '\n' then (none, ⟨c :: rest, line⟩)
      else if c = quote then (some [c], ⟨rest, line⟩)
      else
        match readQuoted quote rest line with
        | (text, scanner) => (text.map fun text => c :: text, scanner)

/-- Reading a string takes characters away and adds none. -/
theorem length_readQuoted_le (quote : Char) (text : List Char) (line : Nat) :
    (readQuoted quote text line).2.rest.length ≤ text.length := by
  fun_induction readQuoted quote text line <;> simp_all only [List.length_cons] <;> omega

/-- Whether a word stops in front of `c`, which is followed by `rest`. -/
def endsWord (c : Char) (rest : List Char) : Bool :=
  isSpace c || Token.isMark c || Token.isQuote c ||
    (c == '/' && (rest.head? == some '/' || rest.head? == some '*'))

/-- Split a text after the longest word it starts with. -/
def spanWord : List Char → List Char × List Char
  | [] => ([], [])
  | c :: rest =>
      if endsWord c rest then ([], c :: rest)
      else
        match spanWord rest with
        | (word, after) => (c :: word, after)

/-- A word and what follows it are the whole text. -/
theorem spanWord_append (text : List Char) : (spanWord text).1 ++ (spanWord text).2 = text := by
  induction text with
  | nil => rfl
  | cons c rest ih =>
      rw [spanWord]
      split
      · rfl
      · simp [ih]

/-- The token of a line comment with a given text after its two slashes. -/
def commentToken (body : List Char) : Token :=
  String.ofList ('/' :: '/' :: ' ' :: Text.trim body)

/-- Read one token from a text that does not start with a gap; there is none at the
end of the text. -/
def readToken : List Char → Nat → Except ParseError (Option Token) × Scanner
  | [], line => (.ok none, ⟨[], line⟩)
  | '/' :: '/' :: rest, line =>
      (.ok (some (commentToken (rest.takeWhile (· != '\n')))),
        ⟨rest.dropWhile (· != '\n'), line⟩)
  | c :: rest, line =>
      if Token.isQuote c then
        match readQuoted c rest line with
        | (some text, scanner) => (.ok (some (String.ofList (c :: text))), scanner)
        | (none, scanner) => (.error (.lexical scanner.line .unterminatedLiteral), scanner)
      else if Token.isMark c then (.ok (some (String.singleton c)), ⟨rest, line⟩)
      else (.ok (some (String.ofList (c :: (spanWord rest).1))), ⟨(spanWord rest).2, line⟩)

/-- Skip a gap and read one token; there is none at the end of the text. -/
def next (scanner : Scanner) : Except ParseError (Option Token) × Scanner :=
  match skipGap none scanner.rest scanner.line with
  | (some opened, after) => (.error (.lexical opened .unterminatedComment), after)
  | (none, after) => readToken after.rest after.line

/-! ## Progress -/

/-- Dropping characters from the front adds none. -/
theorem length_dropWhile_le (drop : Char → Bool) (text : List Char) :
    (text.dropWhile drop).length ≤ text.length :=
  (List.dropWhile_suffix drop).length_le

/-- Away from the end of the text, reading a token takes characters away. -/
theorem length_readToken_lt (text : List Char) (line : Nat) (hMore : text ≠ []) :
    (readToken text line).2.rest.length < text.length := by
  fun_cases readToken text line with
  | case1 => exact absurd rfl hMore
  | case2 rest =>
      -- a line comment
      have hLe := length_dropWhile_le (· != '\n') rest
      simp only [List.length_cons]
      omega
  | case3 c rest line _ _ text scanner hRead =>
      -- a literal
      have hLe := length_readQuoted_le c rest line
      simp only [hRead] at hLe
      simp only [List.length_cons]
      omega
  | case4 c rest line _ _ scanner hRead =>
      -- a literal without an end
      have hLe := length_readQuoted_le c rest line
      simp only [hRead] at hLe
      simp only [List.length_cons]
      omega
  | case5 => simp
  | case6 c rest =>
      -- a word
      have hSpan := congrArg List.length (spanWord_append rest)
      simp only [List.length_append] at hSpan
      simp only [List.length_cons]
      omega

/-- A call that does not report the end takes characters away. -/
theorem length_next_lt (scanner : Scanner) (hMore : scanner.next.1 ≠ .ok none) :
    scanner.next.2.rest.length < scanner.rest.length := by
  have hGap := length_skipGap_le none scanner.rest scanner.line
  revert hMore
  fun_cases next scanner with
  | case1 start after hSkip =>
      -- a block comment without an end takes the whole text
      intro _
      have hAfter : after.rest = [] := by
        have hOpen := rest_skipGap_of_open (congrArg Prod.fst hSkip)
        rwa [hSkip] at hOpen
      cases hText : scanner.rest with
      | nil => simp [hText, skipGap] at hSkip
      | cons c rest => simp [hAfter]
  | case2 after hSkip =>
      -- a token behind the gap
      intro hMore
      rw [hSkip] at hGap
      have hRest : after.rest ≠ [] := by
        intro hNil
        rw [hNil] at hMore
        exact hMore rfl
      exact Nat.lt_of_lt_of_le (length_readToken_lt after.rest after.line hRest) hGap

/-! ## Whole texts -/

/-- The tokens up to the end of the text, or the first fault. -/
def tokens (scanner : Scanner) : Except ParseError (List Token) :=
  match _hNext : scanner.next with
  | (.error fault, _) => .error fault
  | (.ok none, _) => .ok []
  | (.ok (some token), after) =>
      match after.tokens with
      | .error fault => .error fault
      | .ok rest => .ok (token :: rest)
termination_by scanner.rest.length
decreasing_by
  have hLt := length_next_lt scanner (by simp [_hNext])
  rwa [_hNext] at hLt

/-- The answers of repeated calls, and the scanner after each, up to the call that
reports the end.  Faults do not stop the calls. -/
def calls (scanner : Scanner) : List (Except ParseError (Option Token) × Scanner) :=
  match _hNext : scanner.next with
  | (.ok none, after) => [(.ok none, after)]
  | (.ok (some token), after) => (.ok (some token), after) :: after.calls
  | (.error fault, after) => (.error fault, after) :: after.calls
termination_by scanner.rest.length
decreasing_by
  all_goals
    have hLt := length_next_lt scanner (by simp [_hNext])
    rwa [_hNext] at hLt

end Scanner

/-- The tokens of a source text, or the first fault in it. -/
def tokenize (source : String) : Except ParseError (List Token) :=
  (Scanner.ofText source).tokens

end ProtoIdl
