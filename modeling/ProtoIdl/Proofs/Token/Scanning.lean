import ProtoIdl.Proofs.Token.Lexeme

/-!
# Scanning lexemes

What the scanner does in front of a gap, of a lexeme and of what does not end.  It passes over
what it has read, counts the line feeds in it, and goes on with the rest.
-/

namespace ProtoIdl
namespace Scanner

/-- The number of line feeds in a text. -/
def lineFeeds (text : List Char) : Nat :=
  text.count '\n'

@[simp] theorem lineFeeds_nil : lineFeeds [] = 0 := rfl

@[simp] theorem lineFeeds_append (first second : List Char) :
    lineFeeds (first ++ second) = lineFeeds first + lineFeeds second :=
  List.count_append

theorem lineFeeds_cons (c : Char) (rest : List Char) (line : Nat) :
    line + lineFeeds (c :: rest) = lineAfter line c + lineFeeds rest := by
  by_cases hLine : c = '\n'
  · simp only [lineFeeds, lineAfter, hLine, List.count_cons_self, if_true]
    omega
  · simp [lineFeeds, lineAfter, hLine]

@[simp] theorem lineFeeds_cons_of_ne {c : Char} (hLine : c ≠ '\n') (rest : List Char) :
    lineFeeds (c :: rest) = lineFeeds rest := by
  simp [lineFeeds, hLine]

/-! ## Gaps -/

/-- A block comment is passed over up to its closing mark. -/
theorem skipGap_comment {body : List Char} (hBody : ¬['*', '/'] <:+: body) (opened line : Nat)
    (rest : List Char) :
    skipGap (some opened) (body ++ '*' :: '/' :: rest) line =
      skipGap none rest (line + lineFeeds body) := by
  induction body generalizing line with
  | nil => rfl
  | cons c tail ih =>
      have hTail : ¬['*', '/'] <:+: tail := fun hInfix => hBody (List.infix_cons hInfix)
      rw [List.cons_append, skipGap, ih hTail, lineFeeds_cons]
      -- the comment does not close at its first character
      rintro later rfl hLater
      cases tail with
      | nil => cases hLater
      | cons next tail =>
          cases hLater
          exact hBody ⟨[], tail, rfl⟩

/-- A block comment that does not end takes the rest of the text. -/
theorem skipGap_unclosed {text : List Char} (hText : ¬['*', '/'] <:+: text) (opened line : Nat) :
    skipGap (some opened) text line = (some opened, ⟨[], line + lineFeeds text⟩) := by
  induction text generalizing line with
  | nil => rfl
  | cons c tail ih =>
      have hTail : ¬['*', '/'] <:+: tail := fun hInfix => hText (List.infix_cons hInfix)
      rw [skipGap, ih hTail, lineFeeds_cons]
      rintro later rfl rfl
      exact hText ⟨[], later, rfl⟩

/-- A gap is passed over. -/
theorem skipGap_append {gap : List Char} (hGap : IsGap gap) (rest : List Char) (line : Nat) :
    skipGap none (gap ++ rest) line = skipGap none rest (line + lineFeeds gap) := by
  induction hGap generalizing line with
  | nil => rfl
  | @space c tail hSpace _ ih =>
      have hSlash : c ≠ '/' := by
        rintro rfl
        cases hSpace
      rw [List.cons_append, skipGap, if_pos hSpace, ih, lineFeeds_cons]
      rintro later rfl _
      exact hSlash rfl
  | @comment body tail hBody _ ih =>
      have hFeeds : lineFeeds ('/' :: '*' :: (body ++ '*' :: '/' :: tail)) =
          lineFeeds body + lineFeeds tail := by simp
      rw [List.cons_append, List.cons_append, skipGap, List.append_assoc]
      rw [List.cons_append, List.cons_append, skipGap_comment hBody, ih, hFeeds, Nat.add_assoc]

/-- Where no gap begins, nothing is passed over. -/
theorem skipGap_none {text : List Char} (hText : ¬StartsGap text) (line : Nat) :
    skipGap none text line = (none, ⟨text, line⟩) := by
  cases text with
  | nil => rfl
  | cons c rest =>
      have hSpace : isSpace c = false := by
        cases hIs : isSpace c with
        | false => rfl
        | true => exact absurd (.inl hIs) hText
      rw [skipGap, if_neg (by simp [hSpace])]
      rintro later rfl rfl
      exact hText (.inr ⟨rfl, rfl⟩)

/-! ## Lexemes -/

/-- A string literal is read up to its closing quote. -/
theorem readQuoted_append {quote : Char} {body : List Char} (hQuote : Token.isQuote quote = true)
    (hBody : IsQuoted quote body) (rest : List Char) (line : Nat) :
    readQuoted quote (body ++ quote :: rest) line =
      (some (body ++ [quote]), ⟨rest, line + lineFeeds body⟩) := by
  obtain ⟨hSpace, -, -, hBackslash⟩ := ne_of_isQuote hQuote
  have hLine := ne_lineFeed hSpace
  induction hBody generalizing line with
  | nil =>
      rw [List.nil_append, readQuoted, if_neg hLine, if_pos rfl]
      · rfl
      · exact fun hEscape _ => hBackslash hEscape
      · exact fun _ _ hEscape _ => hBackslash hEscape
  | @plain c tail hPlain hFeed hOther _ ih =>
      rw [List.cons_append, readQuoted, if_neg hFeed, if_neg hOther, ih]
      · simp [hFeed]
      · exact fun hEscape _ => hPlain hEscape
      · exact fun _ _ hEscape _ => hPlain hEscape
  | @escaped c tail _ ih =>
      rw [List.cons_append, List.cons_append, readQuoted, ih, ← lineFeeds_cons]
      simp

/-- What is read as a string literal has the form of one. -/
theorem exists_of_readQuoted {quote : Char} {text found : List Char} {line : Nat}
    (hRead : (readQuoted quote text line).1 = some found) :
    ∃ body rest, IsQuoted quote body ∧ text = body ++ quote :: rest := by
  fun_induction readQuoted quote text line generalizing found with
  | case1 | case2 | case4 => cases hRead
  | case3 c rest line inner scanner hInner ih =>
      -- a backslash and the character behind it
      obtain ⟨later, hLater, -⟩ := Option.map_eq_some_iff.mp hRead
      obtain ⟨body, after, hBody, rfl⟩ := ih (by rw [hInner, hLater])
      exact ⟨'\\' :: c :: body, after, .escaped hBody, rfl⟩
  | case5 rest => exact ⟨[], rest, .nil, rfl⟩
  | case6 c rest line _ hEscape hFeed hOther inner scanner hInner ih =>
      -- a character of the body
      obtain ⟨later, hLater, -⟩ := Option.map_eq_some_iff.mp hRead
      obtain ⟨body, after, hBody, rfl⟩ := ih (by rw [hInner, hLater])
      have hBackslash : c ≠ '\\' := by
        rintro rfl
        cases body with
        | nil => exact hEscape _ _ rfl rfl
        | cons => exact hEscape _ _ rfl rfl
      exact ⟨c :: body, after, .plain hBackslash hFeed hOther hBody, rfl⟩

/-- A literal is read the same way on every line. -/
theorem readQuoted_add (quote : Char) (text : List Char) (line lines : Nat) :
    readQuoted quote text (line + lines) =
      ((readQuoted quote text line).1,
        ⟨(readQuoted quote text line).2.rest, (readQuoted quote text line).2.line + lines⟩) := by
  fun_induction readQuoted quote text line with
  | case1 | case2 => rfl
  | case3 c rest line inner scanner hInner ih =>
      -- an escaped line feed is counted, on whatever line it stands
      have hLine : lineAfter (line + lines) c = lineAfter line c + lines := by
        unfold lineAfter
        split <;> omega
      rw [readQuoted, hLine, ih, hInner]
  | case4 rest line hEscape hEscape' =>
      -- a line feed
      rw [readQuoted, if_pos rfl]
      · exact hEscape
      · exact hEscape'
  | case5 rest line hEscape hEscape' hFeed =>
      -- the closing quote
      rw [readQuoted, if_neg hFeed, if_pos rfl]
      · exact hEscape
      · exact hEscape'
  | case6 c rest line hEscape hEscape' hFeed hOther inner scanner hInner ih =>
      -- a character of the body
      rw [readQuoted, if_neg hFeed, if_neg hOther, ih, hInner]
      · exact hEscape
      · exact hEscape'

theorem endsWord_iff (c : Char) (rest : List Char) :
    endsWord c rest = true ↔ EndsWord (c :: rest) := by
  simp [endsWord, EndsWord, isSeparator, or_assoc]

/-- A word is read up to where it ends. -/
theorem spanWord_eq {text rest : List Char}
    (hWithin : ∀ after, after <:+ text → after ≠ [] → ¬EndsWord (after ++ rest))
    (hEnds : EndsWord rest) : spanWord (text ++ rest) = (text, rest) := by
  induction text with
  | nil =>
      cases rest with
      | nil => rfl
      | cons c tail => rw [List.nil_append, spanWord, if_pos ((endsWord_iff c tail).mpr hEnds)]
  | cons c tail ih =>
      have hFirst := hWithin (c :: tail) (List.suffix_refl _) (by simp)
      have hTail := ih fun after hAfter => hWithin after (hAfter.trans (List.suffix_cons c tail))
      have hGoes : ¬endsWord c (tail ++ rest) = true := by
        rw [endsWord_iff]
        exact hFirst
      rw [List.cons_append, spanWord, if_neg hGoes, hTail]

/-- What is read as a word ends where a word has to end, and not before. -/
theorem endsWord_spanWord (text : List Char) :
    EndsWord (spanWord text).2 ∧ ∀ after, after <:+ (spanWord text).1 → after ≠ [] →
      ¬EndsWord (after ++ (spanWord text).2) := by
  induction text with
  | nil =>
      refine ⟨trivial, fun after hAfter hSome => ?_⟩
      exact absurd (List.suffix_nil.mp hAfter) hSome
  | cons c rest ih =>
      rw [spanWord]
      split
      · next hStops =>
          refine ⟨(endsWord_iff c rest).mp hStops, fun after hAfter hSome => ?_⟩
          exact absurd (List.suffix_nil.mp hAfter) hSome
      · next hGoes =>
          refine ⟨ih.1, fun after hAfter hSome => ?_⟩
          rcases List.suffix_cons_iff.mp hAfter with rfl | hTail
          · rw [List.cons_append, spanWord_append, ← endsWord_iff]
            exact hGoes
          · exact ih.2 after hTail hSome

/-! ## Tokens -/

/-- A comment is read up to the end of its line. -/
theorem readToken_comment {body rest : List Char} (hBody : '\n' ∉ body)
    (hRest : rest = [] ∨ rest.head? = some '\n') (line : Nat) :
    readToken ('/' :: '/' :: (body ++ rest)) line =
      (.ok (some (Lexeme.comment body).token), ⟨rest, line⟩) := by
  have hWithin : ∀ c ∈ body, (c != '\n') = true := by
    intro c hMem
    simp only [bne_iff_ne]
    rintro rfl
    exact hBody hMem
  have hStop : rest.takeWhile (· != '\n') = [] ∧ rest.dropWhile (· != '\n') = rest := by
    rcases hRest with rfl | hFeed
    · exact ⟨rfl, rfl⟩
    · cases rest with
      | nil => cases hFeed
      | cons c tail =>
          cases hFeed
          exact ⟨rfl, rfl⟩
  rw [readToken, List.takeWhile_append_of_pos hWithin, List.dropWhile_append_of_pos hWithin,
    hStop.1, hStop.2, List.append_nil]
  rfl

/-- A word is read up to where it ends. -/
theorem readToken_word {text rest : List Char}
    (hWord : (Lexeme.word text).StandsBefore rest) (line : Nat) :
    readToken (text ++ rest) line = (.ok (some (Lexeme.word text).token), ⟨rest, line⟩) := by
  obtain ⟨hText, hEnds, hWithin⟩ := hWord
  cases text with
  | nil => exact absurd rfl hText
  | cons c tail =>
      have hFirst := hWithin (c :: tail) (List.suffix_refl _) hText
      have hTail := spanWord_eq
        (fun after hAfter => hWithin after (hAfter.trans (List.suffix_cons c tail))) hEnds
      have hPlain : isSeparator c = false := by
        cases hIs : isSeparator c with
        | false => rfl
        | true => exact absurd (.inl hIs) hFirst
      simp only [isSeparator, Bool.or_eq_false_iff] at hPlain
      obtain ⟨⟨-, hMark⟩, hQuote⟩ := hPlain
      rw [List.cons_append, readToken, if_neg (by simp [hQuote]), if_neg (by simp [hMark]), hTail]
      · rfl
      · rintro later rfl hLater
        have hNext : (tail ++ rest).head? = some '/' := by
          rw [hLater]
          rfl
        exact hFirst (.inr ⟨rfl, .inl hNext⟩)

/-- A lexeme is read as its token. -/
theorem readToken_append {lexeme : Lexeme} {rest : List Char}
    (hLexeme : lexeme.StandsBefore rest) (line : Nat) :
    readToken (lexeme.slice ++ rest) line =
      (.ok (some lexeme.token), ⟨rest, line + lineFeeds lexeme.slice⟩) := by
  cases lexeme with
  | mark c =>
      obtain ⟨hSpace, hQuote, hSlash⟩ := ne_of_isMark hLexeme
      have hMark : Token.isMark c = true := hLexeme
      have hFeeds : lineFeeds [c] = 0 := lineFeeds_cons_of_ne (ne_lineFeed hSpace) []
      simp only [Lexeme.slice, Lexeme.token, List.cons_append, List.nil_append, hFeeds]
      rw [readToken, if_neg (by simp [hQuote]), if_pos hMark, String.singleton_eq_ofList]
      · rfl
      · exact fun _ hIs _ => hSlash hIs
  | comment body =>
      have hFeeds : lineFeeds ('/' :: '/' :: body) = 0 := by
        simp [lineFeeds, List.count_eq_zero, hLexeme.1]
      simp only [Lexeme.slice, List.cons_append, hFeeds]
      exact readToken_comment hLexeme.1 hLexeme.2 line
  | literal quote body =>
      obtain ⟨hQuote, hBody⟩ := hLexeme
      obtain ⟨hSpace, -, hSlash, -⟩ := ne_of_isQuote hQuote
      simp only [Lexeme.slice, Lexeme.token, List.cons_append, List.append_assoc, List.nil_append]
      rw [readToken, if_pos hQuote, readQuoted_append hQuote hBody]
      · simp [ne_lineFeed hSpace]
      · exact fun _ hIs _ => hSlash hIs
  | word text =>
      have hFeeds : lineFeeds text = 0 := by
        refine List.count_eq_zero.mpr fun hMem => ?_
        have hFeed := Lexeme.isSeparator_of_word hLexeme '\n' hMem
        revert hFeed
        decide
      simp only [Lexeme.slice, hFeeds]
      exact readToken_word hLexeme line

/-- A gap and a lexeme are read as the token of the lexeme. -/
theorem next_append {gap rest : List Char} {lexeme : Lexeme} (hGap : IsGap gap)
    (hLexeme : lexeme.StandsBefore rest) (line : Nat) :
    next ⟨gap ++ (lexeme.slice ++ rest), line⟩ =
      (.ok (some lexeme.token), ⟨rest, line + lineFeeds gap + lineFeeds lexeme.slice⟩) := by
  rw [next, skipGap_append hGap, skipGap_none hLexeme.not_startsGap]
  exact readToken_append hLexeme _

/-- After a gap at the end of the text there is no token. -/
theorem next_gap {gap : List Char} (hGap : IsGap gap) (line : Nat) :
    next ⟨gap, line⟩ = (.ok none, ⟨[], line + lineFeeds gap⟩) := by
  have hSkip := skipGap_append hGap [] line
  rw [List.append_nil] at hSkip
  rw [next, hSkip]
  rfl

/-- What does not end is a fault, a fixed number of lines after where the reading began. -/
theorem next_unclosed {gap stuck : List Char} {fault : LexicalFault} (hGap : IsGap gap)
    (hStuck : Unclosed fault stuck) :
    ∃ lines, ∀ line,
      (next ⟨gap ++ stuck, line⟩).1 = .error (.lexical (line + lines) fault) := by
  cases hStuck with
  | comment hText =>
      refine ⟨lineFeeds gap, fun line => ?_⟩
      rw [next, skipGap_append hGap, skipGap, skipGap_unclosed hText]
  | @literal quote text hQuote hText =>
      obtain ⟨hSpace, -, hSlash, -⟩ := ne_of_isQuote hQuote
      have hStart : ¬StartsGap (quote :: text) := by simp [StartsGap, hSpace, hSlash]
      have hNone : (readQuoted quote text 0).1 = none := by
        cases hRead : (readQuoted quote text 0).1 with
        | none => rfl
        | some found =>
            obtain ⟨body, rest, hBody, hSame⟩ := exists_of_readQuoted hRead
            exact absurd hSame (hText body rest hBody)
      refine ⟨lineFeeds gap + (readQuoted quote text 0).2.line, fun line => ?_⟩
      have hRead := readQuoted_add quote text 0 (line + lineFeeds gap)
      rw [Nat.zero_add, hNone] at hRead
      rw [next, skipGap_append hGap, skipGap_none hStart]
      dsimp only
      rw [readToken, if_pos hQuote, hRead]
      · dsimp only
        rw [Nat.add_comm, Nat.add_assoc]
      · exact fun _ hIs _ => hSlash hIs

/-! ## Texts -/

/-- The pieces of a text give their tokens, and the scanner goes on with the rest. -/
theorem tokens_of_splits {text rest : List Char} {pieces : List Piece}
    (hSplits : Splits text pieces rest) (line : Nat) :
    (⟨text, line⟩ : Scanner).tokens =
      ((⟨rest, line + lineFeeds (pieces.flatMap Piece.text)⟩ : Scanner).tokens).map
        (tokensOf pieces ++ ·) := by
  induction hSplits generalizing line with
  | @nil rest =>
      simp only [List.flatMap_nil, lineFeeds_nil, Nat.add_zero, tokensOf, List.map_nil,
        List.nil_append]
      cases (⟨rest, line⟩ : Scanner).tokens <;> rfl
  | @cons gap later rest lexeme pieces hGap hLexeme _ ih =>
      have hLines : line + lineFeeds (List.flatMap Piece.text (⟨gap, lexeme⟩ :: pieces)) =
          line + lineFeeds gap + lineFeeds lexeme.slice +
            lineFeeds (pieces.flatMap Piece.text) := by
        simp only [List.flatMap_cons, Piece.text, lineFeeds_append]
        omega
      rw [tokens, next_append hGap hLexeme]
      dsimp only
      rw [ih, hLines]
      cases (⟨rest, _⟩ : Scanner).tokens <;> rfl

/-- A text that is pieces and a gap gives the tokens of the pieces. -/
theorem tokens_of_splits_gap {text last : List Char} {pieces : List Piece}
    (hSplits : Splits text pieces last) (hLast : IsGap last) (line : Nat) :
    (⟨text, line⟩ : Scanner).tokens = .ok (tokensOf pieces) := by
  rw [tokens_of_splits hSplits, tokens, next_gap hLast]
  simp [Except.map]

/-- A text that is pieces, a gap and what does not end gives a fault. -/
theorem tokens_of_splits_unclosed {text gap stuck : List Char} {pieces : List Piece}
    {fault : LexicalFault} (hSplits : Splits text pieces (gap ++ stuck)) (hGap : IsGap gap)
    (hStuck : Unclosed fault stuck) :
    ∃ lines, ∀ line,
      (⟨text, line⟩ : Scanner).tokens = .error (.lexical (line + lines) fault) := by
  obtain ⟨lines, hFault⟩ := next_unclosed hGap hStuck
  refine ⟨lineFeeds (pieces.flatMap Piece.text) + lines, fun line => ?_⟩
  have hNext := hFault (line + lineFeeds (pieces.flatMap Piece.text))
  rw [tokens_of_splits hSplits, tokens, ← Nat.add_assoc]
  split
  · next hRun =>
      rw [hRun] at hNext
      cases hNext
      rfl
  · next hRun =>
      rw [hRun] at hNext
      cases hNext
  · next hRun =>
      rw [hRun] at hNext
      cases hNext

end Scanner
end ProtoIdl
