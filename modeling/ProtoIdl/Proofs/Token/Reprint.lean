import Mathlib.Data.List.Permutation
import ProtoIdl.Parse
import ProtoIdl.Proofs.Token.Splitting

/-!
# One token to a line

The tokens of a text, written one to a line, are a text with the same tokens.  What is written
for a lexeme is its token, which is again the slice of a lexeme: a comment keeps its trimmed
text, and every other lexeme keeps its slice.  In front of a line feed, or at the end, each of
them ends where it should, so the lexemes written this way split the new text.
-/

namespace ProtoIdl

namespace Text

/-- Trimming a second time changes nothing. -/
theorem trimWith_trimWith (drop : Char → Bool) (text : List Char) :
    trimWith drop (trimWith drop text) = trimWith drop text := by
  refine trimWith_eq_self (fun c hHead => ?_) fun c hLast => ?_
  · -- what the second step takes away at the end leaves the first character in place
    have hSuffix := List.dropWhile_suffix (l := (text.dropWhile drop).reverse) drop
    have hPrefix := List.reverse_prefix.mpr hSuffix
    rw [List.reverse_reverse] at hPrefix
    obtain ⟨rest, hRest⟩ := hPrefix
    have hFirst : (text.dropWhile drop).head? = some c := ?_
    · exact head?_dropWhile hFirst
    rw [← hRest, List.head?_append]
    rw [trimWith] at hHead
    rw [hHead]
    rfl
  · rw [trimWith, List.getLast?_reverse] at hLast
    exact head?_dropWhile hLast

/-- Trimming adds no characters. -/
theorem trimWith_subset (drop : Char → Bool) (text : List Char) : trimWith drop text ⊆ text := by
  intro c hMem
  rw [trimWith, List.mem_reverse] at hMem
  have hInner := (List.dropWhile_suffix drop).subset hMem
  exact (List.dropWhile_suffix drop).subset (List.mem_reverse.mp hInner)

end Text

namespace Lexeme

variable {lexeme : Lexeme} {rest later : List Char}

/-- The lexeme that stands where the token of a lexeme is written. -/
def reprinted : Lexeme → Lexeme
  | comment body => comment (' ' :: Text.trim body)
  | lexeme => lexeme

theorem slice_reprinted (lexeme : Lexeme) : lexeme.reprinted.slice = lexeme.token.toList := by
  cases lexeme <;> simp [reprinted, token, slice]

theorem token_reprinted (lexeme : Lexeme) : lexeme.reprinted.token = lexeme.token := by
  cases lexeme with
  | comment body =>
      have hBlank : Text.isBlank ' ' = true := by decide
      have hTrim : Text.trim (' ' :: Text.trim body) = Text.trim (Text.trim body) := by
        simp [Text.trim, Text.trimWith, hBlank]
      have hTwice : Text.trim (Text.trim body) = Text.trim body :=
        Text.trimWith_trimWith Text.isBlank body
      rw [reprinted, token, token, hTrim, hTwice]
  | _ => rfl

/-- A word ends in front of a line feed, and at the end. -/
theorem endsWord_of_lineEnd (hLater : later = [] ∨ later.head? = some '\n') : EndsWord later := by
  cases later with
  | nil => trivial
  | cons c tail =>
      obtain rfl : c = '\n' := by simpa using hLater
      exact .inl (by decide)

/-- A word that stands anywhere stands at the end of a line, where its last character may be a
slash. -/
theorem StandsBefore.word_lineEnd {text : List Char} (hWord : (word text).StandsBefore rest)
    (hLater : later = [] ∨ later.head? = some '\n') : (word text).StandsBefore later := by
  refine ⟨hWord.1, endsWord_of_lineEnd hLater, fun after hAfter hSome => ?_⟩
  have hGoes := hWord.2.2 after hAfter hSome
  cases after with
  | nil => exact absurd rfl hSome
  | cons c tail =>
      by_cases hTail : tail = []
      · subst hTail
        rintro (hSeparator | ⟨-, hNext⟩)
        · exact hGoes (.inl hSeparator)
        · have hHead : later.head? = some '/' ∨ later.head? = some '*' := hNext
          rcases hLater with rfl | hFeed
          · simp at hHead
          · simp [hFeed] at hHead
      · rw [List.cons_append, endsWord_cons_append hTail] at hGoes ⊢
        exact hGoes

/-- What is written for a lexeme stands at the end of a line. -/
theorem StandsBefore.reprinted (hLexeme : lexeme.StandsBefore rest)
    (hLater : later = [] ∨ later.head? = some '\n') : lexeme.reprinted.StandsBefore later := by
  cases lexeme with
  | mark c => exact hLexeme
  | comment body =>
      refine ⟨fun hMem => ?_, hLater⟩
      rcases List.mem_cons.mp hMem with hBlank | hBody
      · exact absurd hBlank (by decide)
      · exact hLexeme.1 (Text.trimWith_subset _ body hBody)
  | literal quote body => exact hLexeme
  | word text => exact hLexeme.word_lineEnd hLater

end Lexeme

/-! ## Texts -/

/-- The piece that stands where the token of a piece is written after a gap. -/
def Piece.reprinted (gap : List Char) (piece : Piece) : Piece :=
  ⟨gap, piece.lexeme.reprinted⟩

theorem tokensOf_reprinted (gap : List Char) (pieces : List Piece) :
    tokensOf (pieces.map (Piece.reprinted gap)) = tokensOf pieces := by
  simp [tokensOf, Piece.reprinted, Lexeme.token_reprinted]

/-- Tokens with a new line in front of each. -/
def onNewLines (tokens : List Token) : List Char :=
  tokens.flatMap fun token => '\n' :: token.toList

theorem onNewLines_lineEnd (tokens : List Token) :
    onNewLines tokens = [] ∨ (onNewLines tokens).head? = some '\n' := by
  cases tokens with
  | nil => exact .inl rfl
  | cons token rest => exact .inr rfl

/-- Tokens joined by line feeds stand on new lines, all but the first. -/
theorem toList_intercalate_lineFeed (token : Token) (rest : List Token) :
    ("\n".intercalate (token :: rest)).toList = token.toList ++ onNewLines rest := by
  induction rest generalizing token with
  | nil => simp [onNewLines]
  | cons next rest ih =>
      rw [String.intercalate_cons_cons, String.toList_append, String.toList_append, ih]
      simp [onNewLines]

namespace Splits

variable {text rest : List Char} {pieces : List Piece}

/-- On new lines, what is written for the pieces of a text splits again. -/
theorem reprinted (hSplits : Splits text pieces rest) :
    Splits (onNewLines (tokensOf pieces)) (pieces.map (Piece.reprinted ['\n'])) [] := by
  induction hSplits with
  | nil => exact .nil
  | @cons gap later rest lexeme pieces _ hLexeme _ ih =>
      have hGap : IsGap ['\n'] := .space isSpace_lineFeed .nil
      have hText : onNewLines (tokensOf (⟨gap, lexeme⟩ :: pieces)) =
          ['\n'] ++ (lexeme.reprinted.slice ++ onNewLines (tokensOf pieces)) := by
        simp [onNewLines, tokensOf, Lexeme.slice_reprinted]
      rw [hText]
      exact .cons hGap (hLexeme.reprinted (onNewLines_lineEnd _)) ih

/-- The tokens of pieces scan to themselves when they are joined by line feeds. -/
theorem tokenize_tokensOf (hSplits : Splits text pieces rest) :
    tokenize ("\n".intercalate (tokensOf pieces)) = .ok (tokensOf pieces) := by
  cases hSplits with
  | nil => cbv
  | @cons gap later _ lexeme pieces _ hLexeme hLater =>
      have hWhole : Splits (lexeme.reprinted.slice ++ onNewLines (tokensOf pieces))
          (Piece.reprinted [] ⟨gap, lexeme⟩ :: pieces.map (Piece.reprinted ['\n'])) [] :=
        .cons .nil (hLexeme.reprinted (onNewLines_lineEnd _)) hLater.reprinted
      have hSame : tokensOf
          (Piece.reprinted [] ⟨gap, lexeme⟩ :: pieces.map (Piece.reprinted ['\n'])) =
            lexeme.token :: tokensOf pieces := by
        rw [← tokensOf_reprinted ['\n'] pieces, ← Lexeme.token_reprinted]
        rfl
      have hScan := Scanner.tokens_of_splits_gap hWhole .nil 1
      rw [hSame, Lexeme.slice_reprinted, ← toList_intercalate_lineFeed] at hScan
      exact hScan

end Splits

/-- The tokens of a text, joined by line feeds, scan to themselves.  So a file with one token to
a line parses as the file does. -/
theorem tokenize_intercalate_lineFeed {source : String} {tokens : List Token}
    (hTokens : tokenize source = .ok tokens) :
    tokenize ("\n".intercalate tokens) = .ok tokens ∧
      ∀ settings, parse ("\n".intercalate tokens) settings = parse source settings := by
  have hAgain : tokenize ("\n".intercalate tokens) = .ok tokens := by
    obtain ⟨pieces, last, hSplits, -, rfl⟩ := Scanner.splits_of_tokens hTokens
    exact hSplits.tokenize_tokensOf
  refine ⟨hAgain, fun settings => ?_⟩
  rw [parse, parse, hAgain, hTokens]

/-- A comment is trimmed once, a literal keeps the line feed after its backslash, and a word that
ends with a slash stays apart from what comes next. -/
theorem tokenize_intercalate_lineFeed_mixed :
    tokenize "a/\t/b//  c \n'\\\n//'/**/;" =
      .ok ["a/", "/b", "// c", "'\\\n//'", ";"] ∧
    tokenize "a/\n/b\n// c\n'\\\n//'\n;" = .ok ["a/", "/b", "// c", "'\\\n//'", ";"] := by
  have hSource : tokenize "a/\t/b//  c \n'\\\n//'/**/;" =
      .ok ["a/", "/b", "// c", "'\\\n//'", ";"] := by cbv
  exact ⟨hSource, (tokenize_intercalate_lineFeed hSource).1⟩

end ProtoIdl
