import ProtoIdl.Proofs.Token.Bytes

/-!
# The loops of the scanner of bytes

Each loop of the scanner of bytes comes to the place where the function of `Scanner` for the same
part of a text stops: gaps, the rest of a line, literals and words.  The induction is on the
characters, and `Mirrors.pass` takes a loop over one of them.  A token is then read alike, since
its slice begins and ends between two characters.
-/

namespace ProtoIdl
namespace ByteScanner

open Utf8

variable {source : String} {bytes : ByteScanner} {scanner : Scanner} {text rest : List Char}
  {c : Char} {line : Nat}

/-! ## Equations of the loops -/

theorem skipComment_eq (bytes : ByteScanner) :
    bytes.skipComment =
      match bytes.peek? with
      | none => (false, bytes)
      | some c =>
          if c = '*' ∧ bytes.advance.peek? = some '/' then (true, bytes.advance.advance)
          else bytes.advance.skipComment := by
  rw [skipComment]
  split <;> simp [*]

theorem skipGap_eq (bytes : ByteScanner) :
    bytes.skipGap =
      match bytes.peek? with
      | none => (none, bytes)
      | some c =>
          if Scanner.isSpace c then bytes.advance.skipGap
          else if c = '/' ∧ bytes.peekAt? 1 = some '*' then
            match (bytes.skip 2).skipComment with
            | (false, after) => (some bytes.line, after)
            | (true, after) => after.skipGap
          else (none, bytes) := by
  rw [skipGap]
  split
  · simp [*]
  · simp only [*]
    congr 2
    split <;> simp [*]

theorem skipLine_eq (bytes : ByteScanner) :
    bytes.skipLine =
      match bytes.peek? with
      | none => bytes
      | some c => if c = '\n' then bytes else bytes.advance.skipLine := by
  rw [skipLine]
  split <;> simp [*]

theorem skipQuoted_eq (quote : Char) (bytes : ByteScanner) :
    skipQuoted quote bytes =
      match bytes.peek? with
      | none => (false, bytes)
      | some c =>
          if c = '\n' then (false, bytes)
          else if c = '\\' then skipQuoted quote bytes.advance.advance
          else if c = quote then (true, bytes.advance)
          else skipQuoted quote bytes.advance := by
  rw [skipQuoted]
  split <;> simp [*]

theorem skipWord_eq (bytes : ByteScanner) :
    bytes.skipWord =
      match bytes.peek? with
      | none => bytes
      | some c =>
          if Scanner.isSpace c || Token.isMark c || Token.isQuote c ||
              (c == '/' && (bytes.peekAt? 1 == some '/' || bytes.peekAt? 1 == some '*')) then
            bytes
          else bytes.advance.skipWord := by
  rw [skipWord]
  split <;> simp [*]

/-! ## Loops over the bytes of a character -/

theorem ne_of_high (hHigh : 0x80 ≤ c.toNat) {e : Char} (hLow : e.toNat < 0x80) : c ≠ e := by
  rintro rfl
  omega

theorem skipComment_high (bytes : ByteScanner) (c : Char) (hPeek : bytes.peek? = some c)
    (hHigh : 0x80 ≤ c.toNat) : bytes.skipComment = bytes.advance.skipComment := by
  have hStar : c ≠ '*' := ne_of_high hHigh (by decide)
  rw [skipComment_eq, hPeek]
  simp [hStar]

theorem skipLine_high (bytes : ByteScanner) (c : Char) (hPeek : bytes.peek? = some c)
    (hHigh : 0x80 ≤ c.toNat) : bytes.skipLine = bytes.advance.skipLine := by
  have hFeed : c ≠ '\n' := ne_of_high hHigh (by decide)
  rw [skipLine_eq, hPeek]
  simp [hFeed]

theorem skipQuoted_high {quote : Char} (hQuote : quote.toNat < 0x80) (bytes : ByteScanner)
    (c : Char) (hPeek : bytes.peek? = some c) (hHigh : 0x80 ≤ c.toNat) :
    skipQuoted quote bytes = skipQuoted quote bytes.advance := by
  have hFeed : c ≠ '\n' := ne_of_high hHigh (by decide)
  have hBackslash : c ≠ '\\' := ne_of_high hHigh (by decide)
  have hOther : c ≠ quote := ne_of_high hHigh hQuote
  rw [skipQuoted_eq, hPeek]
  simp [hFeed, hBackslash, hOther]

theorem skipWord_high (bytes : ByteScanner) (c : Char) (hPeek : bytes.peek? = some c)
    (hHigh : 0x80 ≤ c.toNat) : bytes.skipWord = bytes.advance.skipWord := by
  -- the class of this character is that of any other of several bytes
  have hClass : SameClass c '\u0080' := .of_high hHigh (by decide)
  have hSpace : Scanner.isSpace c = false := hClass.isSpace_eq.trans (by decide)
  have hMark : Token.isMark c = false := hClass.isMark_eq.trans (by decide)
  have hQuote : Token.isQuote c = false := hClass.isQuote_eq.trans (by decide)
  have hSlash : c ≠ '/' := ne_of_high hHigh (by decide)
  rw [skipWord_eq, hPeek]
  simp [hSpace, hMark, hQuote, hSlash]

/-! ## Gaps -/

/-- What is left to skip of a gap, in a block comment that was opened or in none. -/
def gapFrom : Option Nat → ByteScanner → Option Nat × ByteScanner
  | none, bytes => bytes.skipGap
  | some opened, bytes =>
      match bytes.skipComment with
      | (false, after) => (some opened, after)
      | (true, after) => after.skipGap

theorem toNat_lt_of_isSpace (hSpace : Scanner.isSpace c = true) : c.toNat < 0x80 := by
  simp only [Scanner.isSpace, Bool.or_eq_true, beq_iff_eq] at hSpace
  rcases hSpace with (((rfl | rfl) | rfl) | rfl) | rfl <;> decide

theorem toNat_lt_of_isQuote (hQuote : Token.isQuote c = true) : c.toNat < 0x80 := by
  simp only [Token.isQuote, Bool.or_eq_true, beq_iff_eq] at hQuote
  rcases hQuote with rfl | rfl <;> decide

/-- A gap is skipped as the scanner of characters skips it. -/
theorem mirrors_gapFrom (opened : Option Nat)
    (hMirrors : Mirrors source bytes ⟨text, line⟩) :
    (gapFrom opened bytes).1 = (Scanner.skipGap opened text line).1 ∧
      Mirrors source (gapFrom opened bytes).2 (Scanner.skipGap opened text line).2 := by
  fun_induction Scanner.skipGap opened text line generalizing bytes with
  | case1 opened line =>
      -- the end of the text, in a comment or not
      have hPeek := hMirrors.peek?_nil
      cases opened with
      | none =>
          rw [gapFrom, skipGap_eq, hPeek]
          exact ⟨rfl, hMirrors⟩
      | some opened =>
          rw [gapFrom, skipComment_eq, hPeek]
          exact ⟨rfl, hMirrors⟩
  | case2 rest line ih =>
      -- the opening of a comment
      have hSlash : bytes.peek? = some '/' := (hMirrors.peek?_iff (by decide)).mpr rfl
      have hStar : bytes.peekAt? 1 = some '*' :=
        (hMirrors.peekAt?_one_iff (by decide) (by decide)).mpr rfl
      have hInside : Mirrors source (bytes.skip 2) ⟨rest, line⟩ :=
        (hMirrors.skip (by decide)).skip (by decide)
      have hLine : bytes.line = line := by
        obtain ⟨_, hStands⟩ := hMirrors
        exact hStands.line_eq
      have hGap : gapFrom none bytes = gapFrom (some line) (bytes.skip 2) := by
        rw [gapFrom, gapFrom, skipGap_eq, hSlash]
        simp only [hStar, hLine]
        rfl
      rw [hGap]
      exact ih hInside
  | case3 c rest line _ hSpace ih =>
      -- white space between comments
      have hLow := toNat_lt_of_isSpace hSpace
      have hPeek : bytes.peek? = some c := (hMirrors.peek?_iff hLow).mpr rfl
      have hGap : gapFrom none bytes = gapFrom none bytes.advance := by
        rw [gapFrom, gapFrom, skipGap_eq, hPeek]
        simp [hSpace]
      rw [hGap]
      exact ih (hMirrors.advance hLow)
  | case4 c rest line hNotComment hSpace =>
      -- the end of the gap
      obtain ⟨d, hPeek, hSame⟩ := hMirrors.exists_peek?
      have hOther : ¬(d = '/' ∧ bytes.peekAt? 1 = some '*') := by
        rintro ⟨hSlash, hStar⟩
        obtain rfl : c = '/' := (hSame '/' (by decide)).mp hSlash
        rw [hMirrors.peekAt?_one_iff (by decide) (by decide)] at hStar
        obtain ⟨later, rfl⟩ := List.head?_eq_some_iff.mp hStar
        exact hNotComment later rfl rfl
      have hGap : gapFrom none bytes = (none, bytes) := by
        rw [gapFrom, skipGap_eq, hPeek]
        simp [hSame.isSpace_eq, hSpace, hOther]
      rw [hGap]
      exact ⟨rfl, hMirrors⟩
  | case5 opened rest line ih =>
      -- the end of the comment
      have hStar : bytes.peek? = some '*' := (hMirrors.peek?_iff (by decide)).mpr rfl
      have hAfter := hMirrors.advance (by decide)
      have hSlash : bytes.advance.peek? = some '/' := (hAfter.peek?_iff (by decide)).mpr rfl
      have hGap : gapFrom (some opened) bytes = gapFrom none bytes.advance.advance := by
        rw [gapFrom, gapFrom, skipComment_eq, hStar]
        simp [hSlash]
      rw [hGap]
      exact ih (hAfter.advance (by decide))
  | case6 opened c rest line hNotEnd ih =>
      -- the inside of the comment
      obtain ⟨d, hPeek, hSame⟩ := hMirrors.exists_peek?
      have hOther : ¬(d = '*' ∧ bytes.advance.peek? = some '/') := by
        rintro ⟨hStar, hSlash⟩
        obtain rfl : c = '*' := (hSame '*' (by decide)).mp hStar
        rw [(hMirrors.advance (by decide)).peek?_iff (by decide)] at hSlash
        obtain ⟨later, rfl⟩ := List.head?_eq_some_iff.mp hSlash
        exact hNotEnd later rfl rfl
      obtain ⟨after, hLoop, hAfter⟩ := hMirrors.pass skipComment_high
      have hGap : gapFrom (some opened) bytes = gapFrom (some opened) after := by
        rw [gapFrom, gapFrom, skipComment_eq, hPeek]
        simp only [hOther, if_false, hLoop]
      rw [hGap]
      exact ih hAfter

/-! ## Tokens -/

theorem mirrors_skipLine (hMirrors : Mirrors source bytes ⟨text, line⟩) :
    Mirrors source bytes.skipLine ⟨text.dropWhile (· != '\n'), line⟩ := by
  induction text generalizing bytes with
  | nil =>
      rw [skipLine_eq, hMirrors.peek?_nil]
      exact hMirrors
  | cons c rest ih =>
      obtain ⟨d, hPeek, hSame⟩ := hMirrors.exists_peek?
      have hFeed := hSame '\n' (by decide)
      rw [skipLine_eq, hPeek]
      by_cases hLine : c = '\n'
      · simpa [hFeed, hLine] using hMirrors
      · obtain ⟨after, hLoop, hAfter⟩ := hMirrors.pass skipLine_high
        rw [Scanner.lineAfter, if_neg hLine] at hAfter
        simpa [hFeed, hLine, hLoop] using ih hAfter

theorem mirrors_skipQuoted {quote : Char} (hQuote : quote.toNat < 0x80)
    (hMirrors : Mirrors source bytes ⟨text, line⟩) :
    (skipQuoted quote bytes).1 = (Scanner.readQuoted quote text line).1.isSome ∧
      Mirrors source (skipQuoted quote bytes).2 (Scanner.readQuoted quote text line).2 := by
  fun_induction Scanner.readQuoted quote text line generalizing bytes with
  | case1 line =>
      rw [skipQuoted_eq, hMirrors.peek?_nil]
      exact ⟨rfl, hMirrors⟩
  | case2 line =>
      -- nothing is left for the backslash to take along
      have hPeek : bytes.peek? = some '\\' := (hMirrors.peek?_iff (by decide)).mpr rfl
      have hAfter : Mirrors source bytes.advance ⟨[], line⟩ := hMirrors.advance (by decide)
      have hStay : bytes.advance.advance = bytes.advance := by
        rw [advance, hAfter.peek?_nil]
      rw [skipQuoted_eq, hPeek]
      simp only [hStay, reduceIte, Char.reduceEq]
      rw [skipQuoted_eq, hAfter.peek?_nil]
      exact ⟨rfl, hAfter⟩
  | case3 c rest line inner scanner hInner ih =>
      -- a backslash takes the character behind it along, whatever that is
      have hPeek : bytes.peek? = some '\\' := (hMirrors.peek?_iff (by decide)).mpr rfl
      have hEscaped : Mirrors source bytes.advance ⟨c :: rest, line⟩ :=
        hMirrors.advance (by decide)
      obtain ⟨after, hLoop, hAfter⟩ := hEscaped.pass (skipQuoted_high hQuote)
      have hRest := ih hAfter
      rw [hInner] at hRest
      rw [skipQuoted_eq, hPeek]
      simp only [hLoop, reduceIte, Char.reduceEq, Option.isSome_map]
      exact hRest
  | case4 rest line =>
      -- a line feed gives the literal up
      have hPeek : bytes.peek? = some '\n' := (hMirrors.peek?_iff (by decide)).mpr rfl
      rw [skipQuoted_eq, hPeek]
      exact ⟨rfl, hMirrors⟩
  | case5 rest line hEscape hEscape' hFeed =>
      -- the closing quote
      have hPeek : bytes.peek? = some quote := (hMirrors.peek?_iff hQuote).mpr rfl
      have hBackslash : quote ≠ '\\' := by
        rintro rfl
        cases rest with
        | nil => exact hEscape rfl rfl
        | cons c rest => exact hEscape' c rest rfl rfl
      have hAfter := hMirrors.advance hQuote
      rw [Scanner.lineAfter, if_neg hFeed] at hAfter
      rw [skipQuoted_eq, hPeek]
      simpa [hFeed, hBackslash] using hAfter
  | case6 c rest line hEscape hEscape' hFeed hOther inner scanner hInner ih =>
      -- a character of the body
      obtain ⟨d, hPeek, hSame⟩ := hMirrors.exists_peek?
      have hBackslash : c ≠ '\\' := by
        rintro rfl
        cases rest with
        | nil => exact hEscape rfl rfl
        | cons c rest => exact hEscape' c rest rfl rfl
      obtain ⟨after, hLoop, hAfter⟩ := hMirrors.pass (skipQuoted_high hQuote)
      rw [Scanner.lineAfter, if_neg hFeed] at hAfter
      have hRest := ih hAfter
      rw [hInner] at hRest
      rw [skipQuoted_eq, hPeek]
      simpa only [hSame '\n' (by decide), hSame '\\' (by decide), hSame quote hQuote, hFeed,
        hBackslash, hOther, hLoop, if_false, Option.isSome_map] using hRest

theorem mirrors_skipWord (hMirrors : Mirrors source bytes ⟨text, line⟩) :
    Mirrors source bytes.skipWord ⟨(Scanner.spanWord text).2, line⟩ := by
  induction text generalizing bytes with
  | nil =>
      rw [skipWord_eq, hMirrors.peek?_nil]
      exact hMirrors
  | cons c rest ih =>
      obtain ⟨d, hPeek, hSame⟩ := hMirrors.exists_peek?
      have hEnds : (Scanner.isSpace d || Token.isMark d || Token.isQuote d ||
          (d == '/' && (bytes.peekAt? 1 == some '/' || bytes.peekAt? 1 == some '*'))) =
            Scanner.endsWord c rest := by
        rw [hSame.isSpace_eq, hSame.isMark_eq, hSame.isQuote_eq, Scanner.endsWord]
        congr 1
        rw [Bool.eq_iff_iff]
        simp only [Bool.and_eq_true, Bool.or_eq_true, beq_iff_eq, hSame '/' (by decide)]
        refine and_congr_right fun hSlash => ?_
        subst hSlash
        rw [hMirrors.peekAt?_one_iff (by decide) (by decide),
          hMirrors.peekAt?_one_iff (by decide) (by decide)]
      rw [skipWord_eq, hPeek, Scanner.spanWord]
      simp only [hEnds]
      cases hStops : Scanner.endsWord c rest with
      | true => exact hMirrors
      | false =>
          have hFeed : c ≠ '\n' := by
            rintro rfl
            simp [Scanner.endsWord, isSpace_lineFeed] at hStops
          obtain ⟨after, hLoop, hAfter⟩ := hMirrors.pass skipWord_high
          rw [Scanner.lineAfter, if_neg hFeed] at hAfter
          simpa [hLoop] using ih hAfter

/-- A slice from one place to a later one has the characters between them. -/
theorem slice?_of_mirrors {start stop : ByteScanner} {used : List Char} {line' : Nat}
    (hStart : Mirrors source start ⟨used ++ rest, line⟩)
    (hStop : Mirrors source stop ⟨rest, line'⟩) :
    slice? source start.position stop.position = some (String.ofList used) := by
  obtain ⟨before, -, hText, hPosition, -, -⟩ := hStart
  obtain ⟨before', -, hText', hPosition', -, -⟩ := hStop
  have hSame : before' = before ++ used := by
    have hBoth := hText'.symm.trans hText
    rw [← List.append_assoc] at hBoth
    exact List.append_cancel_right hBoth
  rw [hPosition, hPosition', hSame]
  exact slice?_eq hText

theorem Mirrors.line_eq (hMirrors : Mirrors source bytes scanner) : bytes.line = scanner.line := by
  obtain ⟨_, hStands⟩ := hMirrors
  exact hStands.line_eq

theorem Mirrors.source_eq (hMirrors : Mirrors source bytes scanner) : bytes.source = source := by
  obtain ⟨_, hStands⟩ := hMirrors
  exact hStands.source_eq

/-- What is read as a string literal is taken from the front of the text. -/
theorem append_of_readQuoted {quote : Char} (hQuote : Token.isQuote quote = true)
    {found : List Char} {after : Scanner}
    (hRead : Scanner.readQuoted quote text line = (some found, after)) :
    text = found ++ after.rest := by
  obtain ⟨body, later, hBody, rfl⟩ := Scanner.exists_of_readQuoted (congrArg Prod.fst hRead)
  rw [Scanner.readQuoted_append hQuote hBody] at hRead
  cases hRead
  simp

/-- A comment is the text from behind its slashes to the end of the line. -/
theorem mirrors_comment (hMirrors : Mirrors source bytes ⟨'/' :: '/' :: rest, line⟩) :
    bytes.readToken.1 =
        some (.ok (some (Scanner.commentToken (rest.takeWhile (· != '\n'))))) ∧
      Mirrors source bytes.readToken.2 ⟨rest.dropWhile (· != '\n'), line⟩ := by
  have hPeek : bytes.peek? = some '/' := (hMirrors.peek?_iff (by decide)).mpr rfl
  have hNext : bytes.peekAt? 1 = some '/' :=
    (hMirrors.peekAt?_one_iff (by decide) (by decide)).mpr rfl
  have hBody : Mirrors source (bytes.skip 2) ⟨rest, line⟩ :=
    (hMirrors.skip (by decide)).skip (by decide)
  have hAfter : Mirrors source bytes.skipLine ⟨rest.dropWhile (· != '\n'), line⟩ := by
    have hLine := mirrors_skipLine hMirrors
    rwa [List.dropWhile_cons_of_pos (by decide), List.dropWhile_cons_of_pos (by decide)]
      at hLine
  have hSlice : slice? source (bytes.position + 2) bytes.skipLine.position =
      some (String.ofList (rest.takeWhile (· != '\n'))) := by
    rw [← List.takeWhile_append_dropWhile (p := (· != '\n')) (l := rest)] at hBody
    exact slice?_of_mirrors hBody hAfter
  rw [readToken, hPeek]
  simp only [hNext, hMirrors.source_eq, hSlice, and_self, if_true]
  exact ⟨by simp, hAfter⟩

/-- A literal is a token if it has an end on its line, and a fault on the line where the scan
stops otherwise. -/
theorem mirrors_literal (hQuote : Token.isQuote c = true)
    (hMirrors : Mirrors source bytes ⟨c :: rest, line⟩) {found : Option (List Char)}
    {after : Scanner} (hRead : Scanner.readQuoted c rest line = (found, after)) :
    (bytes.readToken.1 = some (match found with
      | some text => .ok (some (String.ofList (c :: text)))
      | none => .error (.lexical after.line .unterminatedLiteral))) ∧
      Mirrors source bytes.readToken.2 after := by
  have hLow := toNat_lt_of_isQuote hQuote
  have hPeek : bytes.peek? = some c := (hMirrors.peek?_iff hLow).mpr rfl
  have hSlash := (ne_of_isQuote hQuote).2.2.1
  have hOpen := hMirrors.advance hLow
  rw [Scanner.lineAfter, if_neg (ne_lineFeed (ne_of_isQuote hQuote).1)] at hOpen
  obtain ⟨hClosed, hAfter⟩ := mirrors_skipQuoted hLow hOpen
  rw [hRead] at hClosed hAfter
  rw [readToken, hPeek]
  simp only [hSlash, false_and, if_false, hQuote, if_true]
  cases hLoop : skipQuoted c bytes.advance with
  | mk closed stop =>
      rw [hLoop] at hClosed hAfter
      obtain rfl : closed = found.isSome := hClosed
      cases found with
      | none =>
          have hLine : stop.line = after.line := hAfter.line_eq
          exact ⟨by simp [hLine], hAfter⟩
      | some text =>
          have hSlice : slice? source bytes.position stop.position =
              some (String.ofList (c :: text)) := by
            rw [append_of_readQuoted hQuote hRead, ← List.cons_append] at hMirrors
            exact slice?_of_mirrors hMirrors hAfter
          exact ⟨by simp [sliceToken, hMirrors.source_eq, hSlice], hAfter⟩

/-- A mark is a token by itself. -/
theorem mirrors_mark (hQuote : ¬Token.isQuote c = true) (hMark : Token.isMark c = true)
    (hMirrors : Mirrors source bytes ⟨c :: rest, line⟩) :
    bytes.readToken.1 = some (.ok (some (String.singleton c))) ∧
      Mirrors source bytes.readToken.2 ⟨rest, line⟩ := by
  have hLow := toNat_lt_of_isMark hMark
  have hPeek : bytes.peek? = some c := (hMirrors.peek?_iff hLow).mpr rfl
  have hAfter := hMirrors.advance hLow
  rw [Scanner.lineAfter, if_neg (ne_lineFeed (ne_of_isMark hMark).1)] at hAfter
  rw [readToken, hPeek]
  simp only [(ne_of_isMark hMark).2.2, false_and, if_false, hQuote, hMark, if_true]
  exact ⟨rfl, hAfter⟩

/-- Where nothing else begins, a token is the longest word, and it has its first character. -/
theorem mirrors_word (hStart : ¬StartsGap (c :: rest))
    (hNotComment : ∀ later, c = '/' → rest = '/' :: later → False)
    (hQuote : ¬Token.isQuote c = true) (hMark : ¬Token.isMark c = true)
    (hMirrors : Mirrors source bytes ⟨c :: rest, line⟩) :
    bytes.readToken.1 =
        some (.ok (some (String.ofList (c :: (Scanner.spanWord rest).1)))) ∧
      Mirrors source bytes.readToken.2 ⟨(Scanner.spanWord rest).2, line⟩ := by
  obtain ⟨d, hPeek, hSame⟩ := hMirrors.exists_peek?
  have hOther : ¬(d = '/' ∧ bytes.peekAt? 1 = some '/') := by
    rintro ⟨hSlash, hNext⟩
    obtain rfl : c = '/' := (hSame '/' (by decide)).mp hSlash
    rw [hMirrors.peekAt?_one_iff (by decide) (by decide)] at hNext
    obtain ⟨later, rfl⟩ := List.head?_eq_some_iff.mp hNext
    exact hNotComment later rfl rfl
  have hGoes : ¬Scanner.endsWord c rest = true := by
    rw [Scanner.endsWord_iff]
    rintro (hSeparator | ⟨rfl, hNext | hNext⟩)
    · simp only [isSeparator, hQuote, hMark, Bool.or_false] at hSeparator
      exact hStart (.inl hSeparator)
    · obtain ⟨later, rfl⟩ := List.head?_eq_some_iff.mp hNext
      exact hNotComment later rfl rfl
    · exact hStart (.inr ⟨rfl, hNext⟩)
  have hAfter := mirrors_skipWord hMirrors
  rw [Scanner.spanWord, if_neg hGoes] at hAfter
  have hSlice : slice? source bytes.position bytes.skipWord.position =
      some (String.ofList (c :: (Scanner.spanWord rest).1)) := by
    rw [← Scanner.spanWord_append rest, ← List.cons_append] at hMirrors
    exact slice?_of_mirrors hMirrors hAfter
  rw [readToken, hPeek]
  simp only [hOther, if_false, hSame.isQuote_eq, hSame.isMark_eq, hQuote, hMark]
  exact ⟨by simp [sliceToken, hMirrors.source_eq, hSlice], hAfter⟩

/-- A token is read as the scanner of characters reads it. -/
theorem mirrors_readToken (hStart : ¬StartsGap text)
    (hMirrors : Mirrors source bytes ⟨text, line⟩) :
    bytes.readToken.1 = some (Scanner.readToken text line).1 ∧
      Mirrors source bytes.readToken.2 (Scanner.readToken text line).2 := by
  fun_cases Scanner.readToken text line with
  | case1 line =>
      rw [readToken, hMirrors.peek?_nil]
      exact ⟨rfl, hMirrors⟩
  | case2 rest line => exact mirrors_comment hMirrors
  | case3 c rest line _ hQuote found after hRead => exact mirrors_literal hQuote hMirrors hRead
  | case4 c rest line _ hQuote after hRead => exact mirrors_literal hQuote hMirrors hRead
  | case5 c rest line _ hQuote hMark => exact mirrors_mark hQuote hMark hMirrors
  | case6 c rest line hNotComment hQuote hMark =>
      exact mirrors_word hStart hNotComment hQuote hMark hMirrors

end ByteScanner
end ProtoIdl
