import Mathlib.Data.List.TakeWhile
import ProtoIdl.Proofs.Token.Scanning

/-!
# Every text splits

Every text is a row of lexemes with gaps between them, up to its end or up to a block comment
or a string literal that does not end.  The scanner follows this split, so it answers the
tokens of all lexemes, or the fault of what does not end.

Every token is in one of four classes, and in no other.
-/

namespace ProtoIdl

/-! ## The split of a text -/

/-- Every text begins with a gap, up to where no further gap begins, or to a block comment that
does not end. -/
theorem exists_gap (text : List Char) :
    ∃ gap rest, text = gap ++ rest ∧ IsGap gap ∧
      (¬StartsGap rest ∨ Unclosed .unterminatedComment rest) := by
  induction hLength : text.length using Nat.strongRecOn generalizing text with
  | ind length ih =>
      by_cases hStart : StartsGap text
      · cases text with
        | nil => exact absurd hStart (fun hGap => hGap)
        | cons c tail =>
            rcases hStart with hSpace | ⟨rfl, hStar⟩
            · obtain ⟨gap, rest, rfl, hGap, hRest⟩ := ih tail.length (by simp [← hLength]) tail rfl
              exact ⟨c :: gap, rest, rfl, .space hSpace hGap, hRest⟩
            · obtain ⟨text, rfl⟩ := List.head?_eq_some_iff.mp hStar
              by_cases hClosing : ['*', '/'] <:+: text
              · obtain ⟨body, later, rfl, hBody⟩ := exists_first_closing hClosing
                have hShorter : later.length < length := by
                  simp only [← hLength, List.length_cons, List.length_append]
                  omega
                obtain ⟨gap, rest, rfl, hGap, hRest⟩ := ih later.length hShorter later rfl
                refine ⟨'/' :: '*' :: (body ++ '*' :: '/' :: gap), rest, ?_, .comment hBody hGap,
                  hRest⟩
                simp
              · exact ⟨[], _, rfl, .nil, .inr (.comment hClosing)⟩
      · exact ⟨[], text, rfl, .nil, .inl hStart⟩

/-- Where no gap begins, a lexeme stands, or a string literal that does not end. -/
theorem exists_lexeme {text : List Char} (hText : text ≠ []) (hStart : ¬StartsGap text) :
    (∃ lexeme rest, text = Lexeme.slice lexeme ++ rest ∧ lexeme.StandsBefore rest) ∨
      Unclosed .unterminatedLiteral text := by
  cases text with
  | nil => exact absurd rfl hText
  | cons c tail =>
      by_cases hQuote : Token.isQuote c = true
      · by_cases hClosed : ∃ body rest, IsQuoted c body ∧ tail = body ++ c :: rest
        · obtain ⟨body, rest, hBody, rfl⟩ := hClosed
          exact .inl ⟨.literal c body, rest, by simp [Lexeme.slice], hQuote, hBody⟩
        · refine .inr (.literal hQuote fun body rest hBody hSame => ?_)
          exact hClosed ⟨body, rest, hBody, hSame⟩
      by_cases hMark : Token.isMark c = true
      · exact .inl ⟨.mark c, tail, rfl, hMark⟩
      by_cases hComment : c = '/' ∧ tail.head? = some '/'
      · obtain ⟨rfl, hSlash⟩ := hComment
        obtain ⟨text, rfl⟩ := List.head?_eq_some_iff.mp hSlash
        refine .inl ⟨.comment (text.takeWhile (· != '\n')), text.dropWhile (· != '\n'), ?_, ?_, ?_⟩
        · simp [Lexeme.slice, List.takeWhile_append_dropWhile]
        · intro hMem
          simpa using List.mem_takeWhile_imp hMem
        · cases hRest : text.dropWhile (· != '\n') with
          | nil => exact .inl rfl
          | cons c later =>
              have hStop := Text.head?_dropWhile (congrArg List.head? hRest)
              exact .inr (congrArg some (by simpa using hStop))
      -- neither a separator nor a comment comes first, so the longest word is not empty
      have hWord : ¬EndsWord (c :: tail) := by
        rintro (hSeparator | ⟨rfl, hSlash | hStar⟩)
        · simp only [isSeparator, Bool.or_eq_true] at hSeparator
          rcases hSeparator with (hSpace | hMark') | hQuote'
          · exact hStart (.inl hSpace)
          · exact hMark hMark'
          · exact hQuote hQuote'
        · exact hComment ⟨rfl, hSlash⟩
        · exact hStart (.inr ⟨rfl, hStar⟩)
      have hSpan := Scanner.spanWord_append (c :: tail)
      obtain ⟨hEnds, hWithin⟩ := Scanner.endsWord_spanWord (c :: tail)
      refine .inl ⟨.word (Scanner.spanWord (c :: tail)).1, _, hSpan.symm, ?_, hEnds, hWithin⟩
      intro hNil
      rw [hNil, List.nil_append] at hSpan
      rw [hSpan] at hEnds
      exact hWord hEnds

/-- Every text is pieces and a gap, up to its end or to what does not end. -/
theorem exists_splits (text : List Char) :
    ∃ pieces gap rest, Splits text pieces (gap ++ rest) ∧ IsGap gap ∧
      (rest = [] ∨ ∃ fault, Unclosed fault rest) := by
  induction hLength : text.length using Nat.strongRecOn generalizing text with
  | ind length ih =>
      obtain ⟨gap, rest, rfl, hGap, hStart | hUnclosed⟩ := exists_gap text
      · by_cases hRest : rest = []
        · exact ⟨[], gap, rest, .nil, hGap, .inl hRest⟩
        rcases exists_lexeme hRest hStart with ⟨lexeme, later, rfl, hLexeme⟩ | hUnclosed
        · have hSlice := List.length_pos_of_ne_nil hLexeme.slice_ne_nil
          have hShorter : later.length < length := by
            simp only [← hLength, List.length_append]
            omega
          obtain ⟨pieces, last, stuck, hSplits, hLast⟩ := ih later.length hShorter later rfl
          exact ⟨⟨gap, lexeme⟩ :: pieces, last, stuck, .cons hGap hLexeme hSplits, hLast⟩
        · exact ⟨[], gap, rest, .nil, hGap, .inr ⟨_, hUnclosed⟩⟩
      · exact ⟨[], gap, rest, .nil, hGap, .inr ⟨_, hUnclosed⟩⟩

/-! ## Classes of tokens -/

/-- The classes of tokens. -/
inductive TokenClass where
  | mark
  | comment
  | literal
  | word
  deriving DecidableEq, Repr

namespace TokenClass

/-- What a text is like as a token of a class. -/
def Holds (text : List Char) : TokenClass → Prop
  | mark => ∃ c, Token.isMark c = true ∧ text = [c]
  | comment => ['/', '/'] <+: text
  | literal =>
      ∃ quote body, Token.isQuote quote = true ∧ IsQuoted quote body ∧
        text = quote :: (body ++ [quote])
  | word =>
      text ≠ [] ∧ (∀ c ∈ text, isSeparator c = false) ∧ ¬['/', '/'] <:+: text ∧
        ¬['/', '*'] <:+: text

/-- The class that shows in the first characters. -/
def ofText : List Char → TokenClass
  | '/' :: '/' :: _ => comment
  | c :: _ => if Token.isMark c then mark else if Token.isQuote c then literal else word
  | [] => word

/-- A text has the properties of no other class than the one that shows. -/
theorem eq_ofText {text : List Char} {kind : TokenClass} (hKind : kind.Holds text) :
    kind = ofText text := by
  cases kind with
  | mark =>
      obtain ⟨c, hMark, rfl⟩ := hKind
      simp [ofText, hMark]
  | comment =>
      obtain ⟨rest, rfl⟩ := hKind
      rfl
  | literal =>
      obtain ⟨quote, body, hQuote, -, rfl⟩ := hKind
      have hOther := ne_of_isQuote hQuote
      rw [ofText]
      · simp [hQuote, hOther]
      · exact fun _ hIs _ => hOther.2.2.1 hIs
  | word =>
      obtain ⟨hSome, hPlain, hComment, -⟩ := hKind
      cases text with
      | nil => exact absurd rfl hSome
      | cons c rest =>
          have hFirst := hPlain c (by simp)
          simp only [isSeparator, Bool.or_eq_false_iff] at hFirst
          rw [ofText]
          · simp [hFirst]
          · rintro later rfl rfl
            exact hComment ⟨[], later, rfl⟩

end TokenClass

namespace Lexeme

/-- The class of the token of a lexeme. -/
def kind : Lexeme → TokenClass
  | mark _ => .mark
  | comment _ => .comment
  | literal _ _ => .literal
  | word _ => .word

/-- The token of a lexeme is in its class. -/
theorem StandsBefore.kind_holds {lexeme : Lexeme} {rest : List Char}
    (hStands : lexeme.StandsBefore rest) : lexeme.kind.Holds lexeme.token.toList := by
  cases lexeme with
  | mark c => exact ⟨c, hStands, by simp [token, slice]⟩
  | comment body => exact ⟨' ' :: Text.trim body, by simp [token]⟩
  | literal quote body => exact ⟨quote, body, hStands.1, hStands.2, by simp [token, slice]⟩
  | word text =>
      have hText : (word text).token.toList = text := by simp [token, slice]
      -- a comment that begins inside of a word would have ended it
      have hComment : ∀ next, (next = '/' ∨ next = '*') → ¬['/', next] <:+: text := by
        rintro next hNext ⟨before, after, rfl⟩
        have hHere := hStands.2.2 ('/' :: next :: after) ⟨before, by simp⟩ (by simp)
        refine hHere (.inr ⟨rfl, ?_⟩)
        simpa using hNext
      rw [hText]
      exact ⟨hStands.1, isSeparator_of_word hStands, hComment '/' (.inl rfl),
        hComment '*' (.inr rfl)⟩

end Lexeme

/-! ## What the scanner answers -/

namespace Splits

variable {text rest : List Char} {pieces : List Piece}

/-- Every token is in exactly one class. -/
theorem existsUnique_kind (hSplits : Splits text pieces rest) :
    ∀ token ∈ tokensOf pieces, ∃! kind, TokenClass.Holds token.toList kind := by
  induction hSplits with
  | nil => simp [tokensOf]
  | cons _ hLexeme _ ih =>
      intro token hMem
      rcases List.mem_cons.mp hMem with rfl | hLater
      · refine ⟨_, hLexeme.kind_holds, fun other hOther => ?_⟩
        rw [TokenClass.eq_ofText hOther, TokenClass.eq_ofText hLexeme.kind_holds]
      · exact ih token hLater

end Splits

namespace Scanner

variable {scanner : Scanner}

/-- A text that scans is pieces and a gap. -/
theorem splits_of_tokens {tokens : List Token} (hTokens : scanner.tokens = .ok tokens) :
    ∃ pieces last, Splits scanner.rest pieces last ∧ IsGap last ∧ tokens = tokensOf pieces := by
  obtain ⟨pieces, gap, rest, hSplits, hGap, hRest⟩ := exists_splits scanner.rest
  rcases hRest with rfl | ⟨fault, hUnclosed⟩
  · rw [List.append_nil] at hSplits
    have hOk := tokens_of_splits_gap hSplits hGap scanner.line
    rw [hTokens] at hOk
    cases hOk
    exact ⟨pieces, gap, hSplits, hGap, rfl⟩
  · obtain ⟨lines, hFault⟩ := tokens_of_splits_unclosed hSplits hGap hUnclosed
    have hError := hFault scanner.line
    rw [hTokens] at hError
    cases hError

/-- A text that does not scan is pieces, a gap and what does not end. -/
theorem unclosed_of_tokens {error : ParseError} (hError : scanner.tokens = .error error) :
    ∃ line fault pieces gap stuck, error = .lexical line fault ∧
      Splits scanner.rest pieces (gap ++ stuck) ∧ IsGap gap ∧ Unclosed fault stuck := by
  obtain ⟨pieces, gap, rest, hSplits, hGap, hRest⟩ := exists_splits scanner.rest
  rcases hRest with rfl | ⟨fault, hUnclosed⟩
  · rw [List.append_nil] at hSplits
    have hOk := tokens_of_splits_gap hSplits hGap scanner.line
    rw [hError] at hOk
    cases hOk
  · obtain ⟨lines, hFault⟩ := tokens_of_splits_unclosed hSplits hGap hUnclosed
    have hSame := hFault scanner.line
    rw [hError] at hSame
    cases hSame
    exact ⟨_, fault, pieces, gap, rest, rfl, hSplits, hGap, hUnclosed⟩

end Scanner

end ProtoIdl
