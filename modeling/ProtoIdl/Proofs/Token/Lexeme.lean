import Mathlib.Data.List.Basic
import ProtoIdl.Token.Scanner

/-!
# Lexemes

What a source text is made of, told without the scanner.  A text is a row of lexemes with
gaps between them.  A gap is white space and block comments; a lexeme is a punctuation mark,
a line comment, a string literal or a word, and makes one token.

Where a comment or a word ends depends on what follows, so `Lexeme.StandsBefore` speaks of a
lexeme in front of the rest of a text.  `Splits text pieces rest` then says that a text is
the pieces, one after the other, and a rest.
-/

namespace ProtoIdl

/-! ## Gaps -/

/-- White space and complete block comments.  A block comment ends where its closing mark
comes first. -/
inductive IsGap : List Char → Prop
  | nil : IsGap []
  | space {c : Char} {rest : List Char} (hSpace : Scanner.isSpace c = true)
      (hRest : IsGap rest) : IsGap (c :: rest)
  | comment {body rest : List Char} (hBody : ¬['*', '/'] <:+: body) (hRest : IsGap rest) :
      IsGap ('/' :: '*' :: (body ++ '*' :: '/' :: rest))

/-- A text that goes on with white space or with a block comment. -/
def StartsGap : List Char → Prop
  | [] => False
  | c :: rest => Scanner.isSpace c = true ∨ (c = '/' ∧ rest.head? = some '*')

/-- A block comment that contains a closing mark ends at the first one. -/
theorem exists_first_closing {text : List Char} (hClosing : ['*', '/'] <:+: text) :
    ∃ body rest, text = body ++ '*' :: '/' :: rest ∧ ¬['*', '/'] <:+: body := by
  induction text with
  | nil => simp at hClosing
  | cons c tail ih =>
      by_cases hHere : ['*', '/'] <+: c :: tail
      · obtain ⟨rest, hRest⟩ := hHere
        exact ⟨[], rest, hRest.symm, by simp⟩
      · have hTail : ['*', '/'] <:+: tail := (List.infix_cons_iff.mp hClosing).resolve_left hHere
        obtain ⟨body, rest, rfl, hBody⟩ := ih hTail
        refine ⟨c :: body, rest, rfl, fun hInside => ?_⟩
        rcases List.infix_cons_iff.mp hInside with hPrefix | hLater
        · exact hHere (hPrefix.trans ⟨'*' :: '/' :: rest, rfl⟩)
        · exact hBody hLater

/-! ## Lexemes -/

/-- What stands between the two quotes of a string literal: neither its quote nor a line feed,
other than after a backslash. -/
inductive IsQuoted (quote : Char) : List Char → Prop
  | nil : IsQuoted quote []
  | plain {c : Char} {rest : List Char} (hBackslash : c ≠ '\\') (hLine : c ≠ '\n')
      (hQuote : c ≠ quote) (hRest : IsQuoted quote rest) : IsQuoted quote (c :: rest)
  | escaped {c : Char} {rest : List Char} (hRest : IsQuoted quote rest) :
      IsQuoted quote ('\\' :: c :: rest)

/-- The characters that are no part of words: white space, punctuation and quotes. -/
def isSeparator (c : Char) : Bool :=
  Scanner.isSpace c || Token.isMark c || Token.isQuote c

/-- A text in front of which a word ends: it is at its end, or it goes on with a separator or
with a comment of either kind. -/
def EndsWord : List Char → Prop
  | [] => True
  | c :: rest =>
      isSeparator c = true ∨ (c = '/' ∧ (rest.head? = some '/' ∨ rest.head? = some '*'))

/-- A part of the text that makes one token. -/
inductive Lexeme where
  /-- A punctuation mark. -/
  | mark (c : Char)
  /-- A line comment, by what follows its two slashes. -/
  | comment (body : List Char)
  /-- A string literal, by its quote and what stands between the two. -/
  | literal (quote : Char) (body : List Char)
  /-- A keyword, a name or a number. -/
  | word (text : List Char)
  deriving DecidableEq, Repr

namespace Lexeme

/-- The slice of the text. -/
def slice : Lexeme → List Char
  | mark c => [c]
  | comment body => '/' :: '/' :: body
  | literal quote body => quote :: (body ++ [quote])
  | word text => text

/-- The token of a lexeme: its slice, but of a comment the trimmed text after `// `. -/
def token : Lexeme → Token
  | comment body => String.ofList ('/' :: '/' :: ' ' :: Text.trim body)
  | lexeme => String.ofList lexeme.slice

/-- The lexeme is well formed and, where `rest` follows it, ends where it should: a comment at
the end of its line, and a word as soon as it can and no sooner. -/
def StandsBefore (rest : List Char) : Lexeme → Prop
  | mark c => Token.isMark c = true
  | comment body => '\n' ∉ body ∧ (rest = [] ∨ rest.head? = some '\n')
  | literal quote body => Token.isQuote quote = true ∧ IsQuoted quote body
  | word text =>
      text ≠ [] ∧ EndsWord rest ∧ ∀ after, after <:+ text → after ≠ [] → ¬EndsWord (after ++ rest)

end Lexeme

/-! ## Classes of characters -/

theorem isSpace_lineFeed : Scanner.isSpace '\n' = true := by decide

/-- A punctuation mark is none of the characters that begin or end other lexemes. -/
theorem ne_of_isMark {c : Char} (hMark : Token.isMark c = true) :
    Scanner.isSpace c = false ∧ Token.isQuote c = false ∧ c ≠ '/' := by
  have hMem : c ∈ Token.marks := by simpa [Token.isMark] using hMark
  have hAll : Token.marks.all
      (fun c => !Scanner.isSpace c && !Token.isQuote c && c != '/') = true := by decide
  have hHere := List.all_eq_true.mp hAll c hMem
  simpa [and_assoc] using hHere

theorem ne_of_isQuote {quote : Char} (hQuote : Token.isQuote quote = true) :
    Scanner.isSpace quote = false ∧ Token.isMark quote = false ∧ quote ≠ '/' ∧ quote ≠ '\\' := by
  have hMem : quote = '"' ∨ quote = '\'' := by simpa [Token.isQuote] using hQuote
  rcases hMem with rfl | rfl <;> decide

theorem ne_lineFeed {c : Char} (hSpace : Scanner.isSpace c = false) : c ≠ '\n' := by
  rintro rfl
  rw [isSpace_lineFeed] at hSpace
  cases hSpace

/-- Whether a word goes on at a character shows in the next character at the latest. -/
theorem endsWord_cons_append {c : Char} {rest : List Char} (hRest : rest ≠ [])
    (more : List Char) : EndsWord (c :: (rest ++ more)) ↔ EndsWord (c :: rest) := by
  simp only [EndsWord, List.head?_append_of_ne_nil rest hRest]

/-- A word that has to end has to end whatever follows later. -/
theorem EndsWord.append {text : List Char} (hEnds : EndsWord text) (hText : text ≠ [])
    (more : List Char) : EndsWord (text ++ more) := by
  cases text with
  | nil => exact absurd rfl hText
  | cons c rest =>
      refine hEnds.imp_right fun ⟨hSlash, hNext⟩ => ⟨hSlash, ?_⟩
      cases rest with
      | nil => simp at hNext
      | cons next rest => exact hNext

/-- A gap does not begin in the middle of a word. -/
theorem not_startsGap_of_not_endsWord {text : List Char} (hWord : ¬EndsWord text) :
    ¬StartsGap text := by
  cases text with
  | nil => exact fun hGap => hGap
  | cons c rest =>
      rintro (hSpace | ⟨hSlash, hStar⟩)
      · exact hWord (.inl (by simp [isSeparator, hSpace]))
      · exact hWord (.inr ⟨hSlash, .inr hStar⟩)

namespace Lexeme

variable {lexeme : Lexeme} {rest : List Char}

/-- The first character of a word is part of it. -/
theorem not_endsWord_of_word {text : List Char} (hWord : (word text).StandsBefore rest) :
    ¬EndsWord (text ++ rest) :=
  hWord.2.2 text (List.suffix_refl text) hWord.1

/-- No character of a word is a separator. -/
theorem isSeparator_of_word {text : List Char} (hWord : (word text).StandsBefore rest) :
    ∀ c ∈ text, isSeparator c = false := by
  intro c hMem
  obtain ⟨before, after, rfl⟩ := List.append_of_mem hMem
  have hHere := hWord.2.2 (c :: after) (List.suffix_append before (c :: after)) (by simp)
  cases hIs : isSeparator c with
  | false => rfl
  | true => exact absurd (.inl hIs) hHere

theorem StandsBefore.slice_ne_nil (hStands : lexeme.StandsBefore rest) : lexeme.slice ≠ [] := by
  cases lexeme with
  | word text => exact hStands.1
  | _ => simp [slice]

/-- No gap begins where a lexeme stands. -/
theorem StandsBefore.not_startsGap (hStands : lexeme.StandsBefore rest) :
    ¬StartsGap (lexeme.slice ++ rest) := by
  cases lexeme with
  | mark c =>
      have hMark := ne_of_isMark hStands
      simp [slice, StartsGap, hMark]
  | comment body => simp [slice, StartsGap, Scanner.isSpace]
  | literal quote body =>
      have hQuote := ne_of_isQuote hStands.1
      simp [slice, StartsGap, hQuote]
  | word text => exact not_startsGap_of_not_endsWord (not_endsWord_of_word hStands)

/-- No lexeme ends with a line feed. -/
theorem StandsBefore.getLast?_ne (hStands : lexeme.StandsBefore rest) :
    lexeme.slice.getLast? ≠ some '\n' := by
  cases lexeme with
  | mark c =>
      have hMark := ne_lineFeed (ne_of_isMark hStands).1
      simp [slice, hMark]
  | comment body =>
      intro hLast
      have hMem : '\n' ∈ '/' :: '/' :: body := List.mem_of_getLast? hLast
      simp only [List.mem_cons] at hMem
      rcases hMem with hSlash | hSlash | hBody
      · exact absurd hSlash (by decide)
      · exact absurd hSlash (by decide)
      · exact hStands.1 hBody
  | literal quote body =>
      have hQuote := ne_lineFeed (ne_of_isQuote hStands.1).1
      simp [slice, List.getLast?_cons, hQuote]
  | word text =>
      intro hLast
      have hFeed := isSeparator_of_word hStands '\n' (List.mem_of_getLast? hLast)
      revert hFeed
      decide

/-- A lexeme ends where it does whatever follows the next characters. -/
theorem StandsBefore.append (hStands : lexeme.StandsBefore rest) (hRest : rest ≠ [])
    (more : List Char) : lexeme.StandsBefore (rest ++ more) := by
  cases lexeme with
  | mark c => exact hStands
  | comment body =>
      refine ⟨hStands.1, .inr ?_⟩
      rw [List.head?_append_of_ne_nil rest hRest]
      exact hStands.2.resolve_left hRest
  | literal quote body => exact hStands
  | word text =>
      obtain ⟨hText, hEnds, hWithin⟩ := hStands
      refine ⟨hText, hEnds.append hRest more, fun after hAfter hSome => ?_⟩
      cases after with
      | nil => exact absurd rfl hSome
      | cons c tail =>
          have hTail : tail ++ rest ≠ [] := by simp [hRest]
          have hSame := endsWord_cons_append hTail more (c := c)
          rw [List.append_assoc] at hSame
          rw [List.cons_append, hSame]
          exact hWithin (c :: tail) hAfter hSome

end Lexeme

/-! ## Texts -/

/-- A lexeme with the gap in front of it. -/
structure Piece where
  gap : List Char
  lexeme : Lexeme

/-- The text of a piece. -/
def Piece.text (piece : Piece) : List Char :=
  piece.gap ++ piece.lexeme.slice

/-- The text is the pieces, one after the other, and the rest. -/
inductive Splits : List Char → List Piece → List Char → Prop
  | nil {rest : List Char} : Splits rest [] rest
  | cons {gap later rest : List Char} {lexeme : Lexeme} {pieces : List Piece}
      (hGap : IsGap gap) (hLexeme : lexeme.StandsBefore later)
      (hLater : Splits later pieces rest) :
      Splits (gap ++ (lexeme.slice ++ later)) (⟨gap, lexeme⟩ :: pieces) rest

/-- Nothing of the text is left out. -/
theorem Splits.text_eq {text rest : List Char} {pieces : List Piece}
    (hSplits : Splits text pieces rest) : text = pieces.flatMap Piece.text ++ rest := by
  induction hSplits with
  | nil => rfl
  | cons _ _ _ ih => simp [Piece.text, ← ih]

/-- The tokens of pieces. -/
def tokensOf (pieces : List Piece) : List Token :=
  pieces.map fun piece => piece.lexeme.token

/-- A text that goes on with a block comment or a string literal that does not end: no closing
mark follows, or the matching quote does not come before the end of the line. -/
inductive Unclosed : LexicalFault → List Char → Prop
  | comment {text : List Char} (hText : ¬['*', '/'] <:+: text) :
      Unclosed .unterminatedComment ('/' :: '*' :: text)
  | literal {quote : Char} {text : List Char} (hQuote : Token.isQuote quote = true)
      (hText : ∀ body rest, IsQuoted quote body → text ≠ body ++ quote :: rest) :
      Unclosed .unterminatedLiteral (quote :: text)

end ProtoIdl
