import Mathlib.Logic.Function.Iterate
import ProtoIdl.Proofs.Token.ByteLoops
import ProtoIdl.Proofs.Token.Splitting

/-!
# Calls of the scanner of bytes

One call keeps `Mirrors`, so every number of calls does, whatever they answer.  From this the
position stays between two characters and the line counts the line feeds before it.  A call that
fails stands in front of a block comment or a literal that does not end, and its fault is on the
line of the opening of the comment, or on the line where the literal was given up.
-/

namespace ProtoIdl
namespace ByteScanner

open Utf8

variable {source : String} {bytes : ByteScanner} {scanner : Scanner} {text : List Char}
  {line : Nat}

/-! ## Calls -/

/-- After a gap that ends, no further gap begins. -/
theorem not_startsGap_of_skipGap (hGap : (Scanner.skipGap none text line).1 = none) :
    ¬StartsGap (Scanner.skipGap none text line).2.rest := by
  obtain ⟨gap, rest, rfl, hIsGap, hRest | hStuck⟩ := exists_gap text
  · rw [Scanner.skipGap_append hIsGap, Scanner.skipGap_none hRest]
    exact hRest
  · cases hStuck with
    | comment hBody =>
        rw [Scanner.skipGap_append hIsGap, Scanner.skipGap, Scanner.skipGap_unclosed hBody] at hGap
        cases hGap

/-- A call answers what a call of the scanner of characters answers, and no slice in it begins or
ends within a character. -/
theorem mirrors_next (hMirrors : Mirrors source bytes scanner) :
    bytes.next.1 = some scanner.next.1 ∧ Mirrors source bytes.next.2 scanner.next.2 := by
  obtain ⟨hOpened, hAfter⟩ := mirrors_gapFrom none hMirrors
  have hStart := @not_startsGap_of_skipGap scanner.rest scanner.line
  rw [gapFrom] at hOpened hAfter
  rw [next, Scanner.next]
  cases hGap : bytes.skipGap with
  | mk opened stop =>
      cases hSkip : Scanner.skipGap none scanner.rest scanner.line with
      | mk opened' stop' =>
          rw [hGap, hSkip] at hOpened hAfter
          rw [hSkip] at hStart
          obtain rfl : opened = opened' := hOpened
          cases opened with
          | none => exact mirrors_readToken (hStart rfl) hAfter
          | some opened => exact ⟨rfl, hAfter⟩

theorem mirrors_ofText (source : String) :
    Mirrors source (ofText source) (Scanner.ofText source) :=
  ⟨[], rfl, rfl, rfl, rfl, rfl⟩

/-- The scanners stay at the same place, whatever the calls answer. -/
theorem mirrors_afterCalls (source : String) (calls : Nat) :
    Mirrors source (afterCalls source calls)
      ((fun scanner => scanner.next.2)^[calls] (Scanner.ofText source)) := by
  induction calls with
  | zero => exact mirrors_ofText source
  | succ calls ih =>
      rw [Function.iterate_succ_apply', afterCalls]
      exact (mirrors_next ih).2

/-- Fewer characters ahead means a later position. -/
theorem position_lt_of_mirrors {later : ByteScanner} {scanner' : Scanner}
    (hMirrors : Mirrors source bytes scanner) (hLater : Mirrors source later scanner')
    (hFewer : scanner'.rest.length < scanner.rest.length) : bytes.position < later.position := by
  obtain ⟨before, -, hText, hPosition, -, -⟩ := hMirrors
  obtain ⟨before', -, hText', hPosition', -, -⟩ := hLater
  have hLength := congrArg List.length (hText.symm.trans hText')
  simp only [List.length_append] at hLength
  have hPrefix : before <+: before' :=
    List.prefix_of_prefix_length_le ⟨_, hText.symm⟩ ⟨_, hText'.symm⟩ (by omega)
  obtain ⟨used, rfl⟩ := hPrefix
  have hUsed : 0 < (utf8 used).length := by
    cases used with
    | nil =>
        simp only [List.append_nil] at hLength
        omega
    | cons c used =>
        have hSize := c.utf8Size_pos
        simp only [utf8_cons, List.length_append, String.length_utf8EncodeChar]
        omega
  rw [hPosition, hPosition', utf8_append, List.length_append]
  omega

/-! ## Faults -/

/-- Where a literal is given up, the text or its line is at its end. -/
theorem lineEnd_of_readQuoted {quote : Char}
    (hNone : (Scanner.readQuoted quote text line).1 = none) :
    (Scanner.readQuoted quote text line).2.rest.head? = none ∨
      (Scanner.readQuoted quote text line).2.rest.head? = some '\n' := by
  fun_induction Scanner.readQuoted quote text line with
  | case1 | case2 => exact .inl rfl
  | case3 c rest line inner scanner hInner ih =>
      rw [hInner] at ih
      exact ih (Option.map_eq_none_iff.mp hNone)
  | case4 => exact .inr rfl
  | case5 => cases hNone
  | case6 c rest line _ _ _ _ inner scanner hInner ih =>
      rw [hInner] at ih
      exact ih (Option.map_eq_none_iff.mp hNone)

/-- The line that a fault reports, in a call that starts and stops at given places: for a block
comment it is the line of its opening, which stands after a gap; for a literal it is the line on
which the scan stopped, at the end of this line or of the text. -/
def FaultLine (gap : List Char) (start stop : Scanner) (line : Nat) : LexicalFault → Prop
  | .unterminatedComment => line = start.line + Scanner.lineFeeds gap
  | .unterminatedLiteral =>
      line = stop.line ∧ (stop.rest.head? = none ∨ stop.rest.head? = some '\n')

/-- Where a literal does not end, a call after a gap reports the line on which it stops. -/
theorem next_unclosed_literal {gap : List Char} {quote : Char} (hGap : IsGap gap)
    (hQuote : Token.isQuote quote = true)
    (hText : ∀ body rest, IsQuoted quote body → text ≠ body ++ quote :: rest) (line : Nat) :
    ∃ stop : Scanner, Scanner.next ⟨gap ++ quote :: text, line⟩ =
        (.error (.lexical stop.line .unterminatedLiteral), stop) ∧
      (stop.rest.head? = none ∨ stop.rest.head? = some '\n') := by
  obtain ⟨hSpace, -, hSlash, -⟩ := ne_of_isQuote hQuote
  have hStart : ¬StartsGap (quote :: text) := by simp [StartsGap, hSpace, hSlash]
  cases hRead : Scanner.readQuoted quote text (line + Scanner.lineFeeds gap) with
  | mk found stop =>
      have hNone : found = none := by
        cases found with
        | none => rfl
        | some found =>
            obtain ⟨body, rest, hBody, hSame⟩ :=
              Scanner.exists_of_readQuoted (congrArg Prod.fst hRead)
            exact absurd hSame (hText body rest hBody)
      subst hNone
      refine ⟨stop, ?_, ?_⟩
      · rw [Scanner.next, Scanner.skipGap_append hGap, Scanner.skipGap_none hStart]
        dsimp only
        rw [Scanner.readToken, if_pos hQuote, hRead]
        exact fun _ hIs _ => hSlash hIs
      · have hEnd := lineEnd_of_readQuoted (congrArg Prod.fst hRead)
        rwa [hRead] at hEnd

/-- A call fails in front of a block comment or a literal that does not end. -/
theorem exists_of_next_error {error : ParseError} (hError : scanner.next.1 = .error error) :
    ∃ line fault gap stuck, error = .lexical line fault ∧ scanner.rest = gap ++ stuck ∧
      IsGap gap ∧ Unclosed fault stuck ∧ FaultLine gap scanner scanner.next.2 line fault := by
  obtain ⟨text, line⟩ := scanner
  obtain ⟨gap, stuck, rfl, hGap, hStart | hStuck⟩ := exists_gap text
  · by_cases hEnd : stuck = []
    · subst hEnd
      rw [List.append_nil, Scanner.next_gap hGap] at hError
      cases hError
    rcases exists_lexeme hEnd hStart with ⟨lexeme, rest, rfl, hLexeme⟩ | hStuck
    · rw [Scanner.next_append hGap hLexeme] at hError
      cases hError
    · cases hStuck with
      | @literal quote text hQuote hText =>
          obtain ⟨stop, hNext, hStop⟩ := next_unclosed_literal hGap hQuote hText line
          rw [hNext] at hError ⊢
          cases hError
          exact ⟨stop.line, .unterminatedLiteral, gap, quote :: text, rfl, rfl, hGap,
            .literal hQuote hText, rfl, hStop⟩
  · cases hStuck with
    | @comment text hText =>
        have hNext : (Scanner.next ⟨gap ++ '/' :: '*' :: text, line⟩).1 =
            .error (.lexical (line + Scanner.lineFeeds gap) .unterminatedComment) := by
          rw [Scanner.next, Scanner.skipGap_append hGap, Scanner.skipGap,
            Scanner.skipGap_unclosed hText]
        rw [hNext] at hError
        cases hError
        exact ⟨_, .unterminatedComment, gap, _, rfl, rfl, hGap, .comment hText, rfl⟩

/-- What a failed call reports, from the place where it started to the place where it stopped. The
text goes on with a gap and with a block comment or a literal that does not end.  The line is that
of the opening of the comment; for a literal it is the line on which the scan stopped, at the end
of this line or of the text. -/
def FaultAt (start stop : ByteScanner) (error : ParseError) : Prop :=
  ∃ line fault before gap stuck,
    error = .lexical line fault ∧ start.source.toList = before ++ (gap ++ stuck) ∧
      start.position = (utf8 before).length ∧ IsGap gap ∧ Unclosed fault stuck ∧
      match fault with
      | .unterminatedComment => line = 1 + Scanner.lineFeeds (before ++ gap)
      | .unterminatedLiteral =>
          line = stop.line ∧ (stop.peek? = none ∨ stop.peek? = some '\n')

theorem faultAt_of_next {error : ParseError} (hMirrors : Mirrors source bytes scanner)
    (hError : bytes.next.1 = some (.error error)) : FaultAt bytes bytes.next.2 error := by
  obtain ⟨hAnswer, hStop⟩ := mirrors_next hMirrors
  rw [hError, Option.some_inj] at hAnswer
  obtain ⟨line, fault, gap, stuck, rfl, hRest, hGap, hStuck, hLine⟩ :=
    exists_of_next_error hAnswer.symm
  obtain ⟨before, hSource, hText, hPosition, -, hFeeds⟩ := hMirrors
  refine ⟨line, fault, before, gap, stuck, rfl, ?_, hPosition, hGap, hStuck, ?_⟩
  · rw [hSource, hText, hRest]
  · cases fault with
    | unterminatedComment =>
        dsimp only [FaultLine] at hLine ⊢
        rw [hLine, hFeeds, Scanner.lineFeeds_append, Nat.add_assoc]
    | unterminatedLiteral =>
        obtain ⟨hLine, hEnd⟩ := hLine
        refine ⟨hLine.trans hStop.line_eq.symm, hEnd.imp (fun hNone => ?_) fun hFeed => ?_⟩
        · rw [peek?_eq, hStop.drop_eq, List.head?_eq_none_iff.mp hNone]
          rfl
        · exact (hStop.peek?_iff (by decide)).mpr hFeed

/-! ## Main result -/

/-- The position and the line of a scanner are those of a place between two characters. -/
structure Sound (bytes : ByteScanner) : Prop where
  position_le : bytes.position ≤ bytes.source.utf8ByteSize
  isValid : String.Pos.Raw.IsValid bytes.source ⟨bytes.position⟩
  line_eq : bytes.line = 1 + (bytes.bytes.take bytes.position).count 0x0A

theorem Mirrors.sound (hMirrors : Mirrors source bytes scanner) : bytes.Sound := by
  obtain ⟨before, rfl, hText, hPosition, hLine, hFeeds⟩ := hMirrors
  have hValid : String.Pos.Raw.IsValid bytes.source ⟨bytes.position⟩ := by
    rw [hPosition]
    exact isValid_length hText
  refine ⟨hValid.le_rawEndPos, hValid, ?_⟩
  rw [ByteScanner.bytes, toList_data_toByteArray, hText, hPosition, utf8_append, List.take_left,
    count_utf8, hLine, hFeeds]

/-- A call that does not report the end moves on. -/
theorem Mirrors.position_lt (hMirrors : Mirrors source bytes scanner)
    (hMore : bytes.next.1 ≠ some (.ok none)) : bytes.position < bytes.next.2.position := by
  obtain ⟨hAnswer, hStop⟩ := mirrors_next hMirrors
  refine position_lt_of_mirrors hMirrors hStop (Scanner.length_next_lt scanner fun hEnd => ?_)
  rw [hAnswer, hEnd] at hMore
  exact hMore rfl

/-- As long as no call reports the end, the position is not less than the number of calls. -/
theorem le_position_afterCalls {calls : Nat}
    (hMore : ∀ earlier < calls, (afterCalls source earlier).next.1 ≠ some (.ok none)) :
    calls ≤ (afterCalls source calls).position := by
  induction calls with
  | zero => exact Nat.zero_le _
  | succ calls ih =>
      have hBefore := ih fun earlier hEarlier => hMore earlier (by omega)
      have hMoves := (mirrors_afterCalls source calls).position_lt (hMore calls (by omega))
      rw [afterCalls]
      omega

/-- The scanner of bytes stays sound across calls, failed ones included.  After any number of
calls the position is between two characters of the source, and the line counts the line feeds
before it.  The next call answers what the scanner of characters answers, so every slice it takes
is one; it moves on unless it reports the end, and what it reports as a fault is on the right
line.  The end is reported after at most one call more than there are bytes. -/
theorem afterCalls_sound (source : String) :
    (∀ calls,
      (afterCalls source calls).source = source ∧ (afterCalls source calls).Sound ∧
      (afterCalls source calls).next.1 = some
        ((fun scanner => scanner.next.2)^[calls] (Scanner.ofText source)).next.1 ∧
      ((afterCalls source calls).next.1 ≠ some (.ok none) →
        (afterCalls source calls).position < (afterCalls source (calls + 1)).position) ∧
      ∀ error, (afterCalls source calls).next.1 = some (.error error) →
        FaultAt (afterCalls source calls) (afterCalls source (calls + 1)) error) ∧
    ∃ calls ≤ source.utf8ByteSize, (afterCalls source calls).next.1 = some (.ok none) := by
  refine ⟨fun calls => ?_, ?_⟩
  · have hMirrors := mirrors_afterCalls source calls
    exact ⟨hMirrors.source_eq, hMirrors.sound, (mirrors_next hMirrors).1, hMirrors.position_lt,
      fun error => faultAt_of_next hMirrors⟩
  · -- otherwise the position would come to lie behind the end of the source
    by_contra hNever
    have hMore : ∀ earlier < source.utf8ByteSize + 1,
        (afterCalls source earlier).next.1 ≠ some (.ok none) := by
      intro earlier hEarlier hEnd
      exact hNever ⟨earlier, Nat.le_of_lt_succ hEarlier, hEnd⟩
    have hFar := le_position_afterCalls hMore
    have hMirrors := mirrors_afterCalls source (source.utf8ByteSize + 1)
    have hWithin := hMirrors.sound.position_le
    rw [hMirrors.source_eq] at hWithin
    omega

end ByteScanner
end ProtoIdl
