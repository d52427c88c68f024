import Mathlib.Data.List.Permutation
import ProtoIdl.Proofs.Token.Splitting

/-!
# Scanning line by line

A text that scans and ends at the end of a line can be scanned apart from what follows it.
No lexeme reaches over its last line feed: comments and words end before a line feed, and a
string literal that goes on after one, with a backslash, ends with its quote.  So the text is
pieces and a gap, and after the gap the scanner stands where it would at the start of what
follows, except that the lines are counted on.
-/

namespace ProtoIdl

/-- A text that is empty or ends with a line feed. -/
def EndsLine (text : List Char) : Prop :=
  text = [] ∨ text.getLast? = some '\n'

/-- Where pieces reach to the end of a line, they are the same in front of any other text. -/
theorem Splits.append {text rest : List Char} {pieces : List Piece}
    (hSplits : Splits text pieces rest) (hLine : EndsLine text) (more : List Char) :
    Splits (text ++ more) pieces (rest ++ more) := by
  induction hSplits with
  | nil => exact .nil
  | @cons gap later rest lexeme pieces hGap hLexeme _ ih =>
      have hSlice := hLexeme.slice_ne_nil
      have hFeed : (gap ++ (lexeme.slice ++ later)).getLast? = some '\n' :=
        hLine.resolve_left (by simp [hSlice])
      -- the line feed at the end is not the last character of the lexeme
      have hLater : later ≠ [] := by
        rintro rfl
        rw [List.append_nil, List.getLast?_append_of_ne_nil gap hSlice] at hFeed
        exact hLexeme.getLast?_ne hFeed
      have hEnds : EndsLine later := by
        right
        rwa [← List.append_assoc, List.getLast?_append_of_ne_nil _ hLater] at hFeed
      rw [List.append_assoc, List.append_assoc]
      exact .cons hGap (hLexeme.append hLater more) (ih hEnds)

namespace Scanner

/-- After a gap the scanner goes on with what follows. -/
theorem tokens_gap_append {gap : List Char} (hGap : IsGap gap) (rest : List Char) (line : Nat) :
    (⟨gap ++ rest, line⟩ : Scanner).tokens =
      (⟨rest, line + lineFeeds gap⟩ : Scanner).tokens := by
  have hNext : next ⟨gap ++ rest, line⟩ = next ⟨rest, line + lineFeeds gap⟩ := by
    rw [next, skipGap_append hGap, next]
  rw [tokens.eq_def, tokens.eq_def, hNext]

/-- A text scans alike on every line, apart from the line of a fault. -/
theorem tokens_add (text : List Char) (line lines : Nat) :
    (∀ tokens, (⟨text, line⟩ : Scanner).tokens = .ok tokens →
      (⟨text, line + lines⟩ : Scanner).tokens = .ok tokens) ∧
    ∀ found fault, (⟨text, line⟩ : Scanner).tokens = .error (.lexical found fault) →
      (⟨text, line + lines⟩ : Scanner).tokens = .error (.lexical (found + lines) fault) := by
  refine ⟨fun tokens hTokens => ?_, fun found fault hError => ?_⟩
  · obtain ⟨pieces, last, hSplits, hLast, rfl⟩ := splits_of_tokens hTokens
    exact tokens_of_splits_gap hSplits hLast _
  · obtain ⟨_, _, pieces, gap, stuck, hSame, hSplits, hGap, hStuck⟩ := unclosed_of_tokens hError
    cases hSame
    obtain ⟨later, hFault⟩ := tokens_of_splits_unclosed hSplits hGap hStuck
    have hHere := hFault line
    rw [hError] at hHere
    cases hHere
    rw [hFault, Nat.add_right_comm]

end Scanner

/-- Scanning goes line by line.  What follows a text that scans and ends at the end of a line
scans as it does alone, after the tokens of that text and on later lines. -/
theorem tokenize_append_line {first second : String} {tokens : List Token}
    (hFirst : tokenize first = .ok tokens) (hLine : EndsLine first.toList) :
    (∀ later, tokenize second = .ok later →
      tokenize (first ++ second) = .ok (tokens ++ later)) ∧
    ∀ line fault, tokenize second = .error (.lexical line fault) →
      tokenize (first ++ second) =
        .error (.lexical (line + Scanner.lineFeeds first.toList) fault) := by
  obtain ⟨pieces, last, hSplits, hLast, rfl⟩ := Scanner.splits_of_tokens hFirst
  have hFeeds : Scanner.lineFeeds first.toList =
      Scanner.lineFeeds (pieces.flatMap Piece.text) + Scanner.lineFeeds last := by
    rw [← Scanner.lineFeeds_append, ← hSplits.text_eq]
    rfl
  have hWhole : tokenize (first ++ second) =
      (⟨second.toList, 1 + Scanner.lineFeeds first.toList⟩ : Scanner).tokens.map
        (tokensOf pieces ++ ·) := by
    have hJoined := hSplits.append hLine second.toList
    rw [tokenize, Scanner.ofText, String.toList_append, hFeeds, ← Nat.add_assoc,
      ← Scanner.tokens_gap_append hLast]
    exact Scanner.tokens_of_splits hJoined 1
  obtain ⟨hOk, hError⟩ :=
    Scanner.tokens_add second.toList 1 (Scanner.lineFeeds first.toList)
  refine ⟨fun later hLater => ?_, fun line fault hFault => ?_⟩
  · rw [hWhole, hOk later hLater]
    rfl
  · rw [hWhole, hError line fault hFault]
    rfl

/-- After a comment over two lines and a word, a word is read, and a literal that does not end
is reported on the third line. -/
theorem tokenize_append_line_literal :
    tokenize "/*\n*/a\n" = .ok ["a"] ∧ EndsLine "/*\n*/a\n".toList ∧
      tokenize ("/*\n*/a\n" ++ "b") = .ok ["a", "b"] ∧
      tokenize ("/*\n*/a\n" ++ "\"b") = .error (.lexical 3 .unterminatedLiteral) := by
  have hFirst : tokenize "/*\n*/a\n" = .ok ["a"] := by cbv
  have hWord : tokenize "b" = .ok ["b"] := by cbv
  have hLiteral : tokenize "\"b" = .error (.lexical 1 .unterminatedLiteral) := by cbv
  have hLine : EndsLine "/*\n*/a\n".toList := .inr (by decide)
  exact ⟨hFirst, hLine, (tokenize_append_line hFirst hLine).1 _ hWord,
    (tokenize_append_line hFirst hLine).2 1 _ hLiteral⟩

end ProtoIdl
