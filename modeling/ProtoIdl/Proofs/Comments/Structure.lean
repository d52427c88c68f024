import ProtoIdl.Proofs.Comments.Mirror
import ProtoIdl.Proofs.Parser.Block

/-!
# Values, blocks and lists, with and without comments

The comparison of two runs at the places where comments need care: the token after an
equals sign, the inside of a block, lists with commas, lists of members, and a semicolon
that may be left out.
-/

namespace ProtoIdl

/-- A comment is no brace, so the blocks stay the same without comments. -/
theorem Cursor.splitBlock?_withoutComments (inner : Nat) (tokens : List Token) :
    splitBlock? inner (Token.withoutComments tokens) =
      (splitBlock? inner tokens).map fun parts =>
        (Token.withoutComments parts.1, Token.withoutComments parts.2) := by
  induction tokens generalizing inner with
  | nil => rfl
  | cons token rest ih =>
      by_cases hComment : token.isComment = true
      · have hOpen : token ≠ Token.openBrace := Token.ne_of_comment hComment (by decide)
        have hClose : token ≠ Token.closeBrace := Token.ne_of_comment hComment (by decide)
        rw [Token.withoutComments_cons_of_comment hComment, ih, splitBlock?_cons_of_ne hOpen hClose]
        cases splitBlock? inner rest with
        | none => rfl
        | some parts => simp [Token.withoutComments_cons_of_comment hComment]
      · have hComment : token.isComment = false := by simpa using hComment
        rw [Token.withoutComments_cons hComment]
        by_cases hClose : token = Token.closeBrace
        · subst hClose
          cases inner with
          | zero => rw [splitBlock?_done, splitBlock?_done]; rfl
          | succ inner =>
              rw [splitBlock?_close, splitBlock?_close, ih]
              cases splitBlock? inner rest with
              | none => rfl
              | some parts => simp [Token.withoutComments_cons hComment]
        · by_cases hOpen : token = Token.openBrace
          · subst hOpen
            rw [splitBlock?_open, splitBlock?_open, ih]
            cases splitBlock? (inner + 1) rest with
            | none => rfl
            | some parts => simp [Token.withoutComments_cons hComment]
          · rw [splitBlock?_cons_of_ne hOpen hClose, splitBlock?_cons_of_ne hOpen hClose, ih]
            cases splitBlock? inner rest with
            | none => rfl
            | some parts => simp [Token.withoutComments_cons hComment]

namespace Parser

namespace Mirrored

variable {cursor : Cursor} {landing : Landing}

/-! ## Values -/

/-- After an equals sign a token is taken whatever it is.  If a comment can stand there, the
second run takes the token behind it, and has to fail on that. -/
theorem value_bind {place expected context : String} {second : Token → Parser α}
    {bareSecond : Token → Parser β} {change : α → β} (hEquals : (second "=").Refuses)
    (hComment : ∀ (token : Token) (after last bare : Cursor) (value : α),
      token.isComment = true → (second token).run after = .ok value last →
        landing.Applies last → bare.rest = Token.withoutComments after.rest →
          ∃ fault bareAfter, (Parser.next expected context >>= bareSecond).run bare =
            .error fault bareAfter)
    (hSecond : ∀ (token : Token) (after : Cursor), token.isComment = false →
      Mirrored (second token) (bareSecond token) landing change after) :
    Mirrored (Parser.expect "=" place >>= fun _ => Parser.next expected context >>= second)
      (Parser.expect "=" place >>= fun _ => Parser.next expected context >>= bareSecond) landing
      change cursor := by
  intro bareCursor hAligned value after hRun hLanding
  obtain ⟨behind, hRest, hRun⟩ := exists_of_run_expect_bind hRun
  obtain ⟨token, later, hToken, hRun⟩ := exists_of_run_next_bind hRun
  have hBehind : behind = token :: later := hToken
  have hBare : bareCursor.rest = "=" :: Token.withoutComments behind := by
    rw [hAligned.rest_eq, hRest, Token.withoutComments_cons (by decide)]
  rw [run_expect_bind place hBare]
  by_cases hIsComment : token.isComment = true
  · -- the comment has been passed right after the equals sign, and stays passed
    have hPassed : Token.PassedValue ((cursor.past "=" behind).past token later).seen :=
      .inl ⟨hIsComment, rfl⟩
    refine .inr ⟨(onward_of_ok hRun).passedValue hPassed, ?_⟩
    apply hComment token _ after _ value hIsComment hRun hLanding
    show Token.withoutComments behind = Token.withoutComments later
    rw [hBehind, Token.withoutComments_cons_of_comment hIsComment]
  · have hNot : token.isComment = false := by simpa using hIsComment
    by_cases hSame : token = "="
    · exact absurd hRun (hSame ▸ hEquals _ _ _)
    · -- the same token comes after the equals sign in both runs
      have hAhead : (bareCursor.past "=" (Token.withoutComments behind)).rest =
          token :: Token.withoutComments later := by
        show Token.withoutComments behind = _
        rw [hBehind, Token.withoutComments_cons hNot]
      rw [run_next_bind expected context hAhead]
      have hPast : ((cursor.past "=" behind).past token later).Aligned
          ((bareCursor.past "=" (Token.withoutComments behind)).past token
            (Token.withoutComments later)) := by
        refine ⟨rfl, hAligned.depth_eq, hAligned.limit_eq, ?_, ?_⟩
        · simpa [Cursor.past] using hSame
        · rintro (⟨hToken, _⟩ | ⟨hSign, _⟩ | hEarlier)
          · exact hIsComment hToken
          · revert hSign
            decide
          · exact hAligned.clean hEarlier
      exact hSecond token _ hNot _ hPast value after hRun hLanding

/-! ## Blocks -/

/-- A block is isolated in both runs.  Its inside is read to its end, so a comment taken for
a value there shows in what has been passed. -/
theorem inside {body bareBody : Parser α} {context : String} {change : α → α}
    (hEnd : ∀ entered value last, body.run entered = .ok value last → last.rest = [])
    (hBody : ∀ entered : Cursor, entered.left < cursor.left →
      Mirrored body bareBody .level change entered) :
    Mirrored (inside context body) (inside context bareBody) .level change cursor := by
  intro bareCursor hAligned value after hRun _
  obtain ⟨block, later, last, hSplit, hOpen, hInner, rfl⟩ := exists_of_run_inside hRun
  have hAhead := Cursor.append_of_splitBlock? hSplit
  have hBareSplit : Cursor.splitBlock? 0 bareCursor.rest =
      some (Token.withoutComments block, Token.withoutComments later) := by
    rw [hAligned.rest_eq, Cursor.splitBlock?_withoutComments, hSplit]
    rfl
  have hDepth := hAligned.depth_eq
  have hLimit := hAligned.limit_eq
  rw [run_inside context bareBody hBareSplit (by omega)]
  have hInside : (blockCursor cursor block).Aligned
      (blockCursor bareCursor (Token.withoutComments block)) :=
    ⟨rfl, by simp [blockCursor, hDepth], hLimit, by simp [blockCursor], fun hPassed => hPassed⟩
  have hShorter : (blockCursor cursor block).left < cursor.left := by
    simp [blockCursor, Cursor.left, hAhead]
  -- what the inside has passed is the block, so the cursor after it has passed that too
  have hSeen : last.seen = block.reverse := by
    obtain ⟨_, _, used, hUsed, hPassed⟩ := onward_of_ok hInner
    rw [hEnd _ _ _ hInner, List.append_nil] at hUsed
    rw [hPassed, ← hUsed]
    simp [blockCursor]
  have hPassed : Token.PassedValue (blockEnd cursor block later).seen ↔
      Token.PassedValue last.seen := by
    have hBrace : Token.isComment Token.closeBrace = false := by decide
    rw [hSeen]
    simp only [blockEnd, Token.PassedValue, hBrace, Bool.false_eq_true, false_and, false_or]
    rw [Token.passedValue_append hAligned.settled]
    simp [hAligned.clean]
  rcases hBody _ hShorter _ hInside value last hInner trivial with
    ⟨bareLast, hBare, hLast⟩ | ⟨hSlip, fault, bareLast, hBare⟩
  · rw [hBare]
    refine .inl ⟨_, rfl, rfl, hDepth, hLimit, ?_, ?_⟩
    · simp only [blockEnd, List.head?_cons]
      decide
    · rw [hPassed]
      exact hLast.clean
  · rw [hBare]
    exact .inr ⟨hPassed.mpr hSlip, fault, _, rfl⟩

/-! ## Lists with commas -/

theorem commaHead {close : Token} (hComment : close.isComment = false) (hEquals : close ≠ "=")
    (context : String) :
    Mirrored (commaHead close context).toParser (commaHead close context).toParser .level id
      cursor := by
  refine next_bind (.inr fun token hToken => ?_) ?_ fun token after _ => ?_
  · rw [if_neg (Token.ne_of_comment hToken (by decide)), if_neg (Token.ne_of_comment hToken hComment)]
    exact refuses_rejectLast context
  · rw [if_neg (by decide), if_neg (Ne.symm hEquals)]
    exact refuses_rejectLast context
  · split
    · exact .pure rfl
    · split
      · exact .pure rfl
      · exact of_refuses (refuses_rejectLast context)

/-- A further item, or the end of the list, is announced by the next token. -/
theorem exists_of_run_commaLoop {close : Token} {context : String}
    {item : σ → Unit → Parser σ} {state final : σ} {start after : Cursor}
    (hRun : (loop (Parser.commaHead close context) item state).run start = .ok final after) :
    ∃ token, start.rest.head? = some token ∧ (token = "," ∨ token = close) := by
  rw [loop_eq] at hRun
  obtain ⟨found, between, hHead, _⟩ := run_bind_eq_ok_iff.mp hRun
  obtain ⟨token, rest, hRest, hToken⟩ := exists_of_run_next_bind hHead
  refine ⟨token, by rw [hRest]; rfl, ?_⟩
  split at hToken
  · next hComma => exact .inl hComma
  · split at hToken
    · next hClose => exact .inr hClose
    · cases hToken

/-- Lists with commas are compared item by item.  An item may end anywhere where a comma or
the end of the list follows. -/
theorem commaList {close : Token} {item : σ → Parser σ} (passing : Landing)
    (hPassing : passing ≠ .nearby) (hComment : close.isComment = false) (hEquals : close ≠ "=")
    (hApplies : ∀ (cursor : Cursor) (token : Token), cursor.rest.head? = some token →
      token = "," ∨ token = close → passing.Applies cursor)
    (hItem : ∀ state cursor, Mirrored (item state) (item state) passing id cursor)
    (context : String) (state : σ) :
    Mirrored (commaList close context item state) (commaList close context item state) .level id
      cursor := by
  have hEnds : ∀ state start final after,
      (Parser.loop (Parser.commaHead close context) (fun state _ => item state) state).run start =
        .ok final after → Landing.level.Applies after → passing.Applies start := by
    intro state start final after hRun _
    obtain ⟨token, hHead, hToken⟩ := exists_of_run_commaLoop hRun
    exact hApplies start token hHead hToken
  refine bind_of_applies passing hPassing (hItem state cursor) hEnds fun first start hFirst => ?_
  clear hFirst
  -- the loop after the first item, by the tokens that it has ahead
  induction hLeft : start.left using Nat.strongRecOn generalizing first start with
  | ind left ih =>
      rw [id_eq, loop_eq]
      refine .bind (commaHead hComment hEquals context) fun found between hHead => ?_
      cases found with
      | none => exact .pure rfl
      | some found =>
          have hLess := (Parser.commaHead close context).progress start _ between hHead rfl
          apply bind_of_applies passing hPassing (hItem first between) hEnds
          intro grown after hRun
          have hLe := (onward_of_ok hRun).left_le
          exact ih after.left (by omega) grown after rfl

end Mirrored
end Parser
end ProtoIdl
