import ProtoIdl.Proofs.Comments.Aligned
import ProtoIdl.Proofs.Parser.Reading
import ProtoIdl.Proofs.Parser.Running

/-!
# Two runs, with and without comments

`parser.Mirrored bare landing change cursor` compares a successful run of `parser` from
`cursor` with the run of `bare` from any cursor aligned with it.  As long as no comment is
taken for a value, the second run succeeds too, and answers what `change` makes of the
first answer; once a comment has been taken for a value, the second run fails.

The comparison is kept by composition.  It is proved of the primitive steps, where the
token taken decides: a comment must be refused, and then the second run does not see it.
-/

namespace ProtoIdl
namespace Parser

/-! ## Comments ahead -/

/-- After a run of comments none comes next. -/
theorem beforeToken_of_takeComments {cursor after : Cursor} {comments : List String}
    (hRun : takeComments.run cursor = .ok comments after) : after.BeforeToken := by
  cases hRun
  intro token hHead
  have hRefused := List.head?_dropWhile_not Token.isComment cursor.rest
  simp only at hHead
  rw [hHead] at hRefused
  simpa using hRefused

/-! ## Parsers that cannot succeed -/

/-- The parser does not succeed. -/
def Refuses (parser : Parser α) : Prop :=
  ∀ cursor value after, parser.run cursor ≠ .ok value after

/-- What does not succeed answers an error. -/
theorem Refuses.exists_error {parser : Parser α} (hRefuses : parser.Refuses)
    (cursor : Cursor) : ∃ fault after, parser.run cursor = .error fault after := by
  cases hRun : parser.run cursor with
  | ok value after => exact absurd hRun (hRefuses cursor value after)
  | error fault after => exact ⟨fault, after, rfl⟩

theorem refuses_fail (fault : ParseError) : (fail fault : Parser α).Refuses :=
  fun _ _ _ hRun => nomatch hRun

theorem refuses_rejectLast (context : String) : (rejectLast context : Parser α).Refuses :=
  fun _ _ _ hRun => nomatch hRun

theorem Refuses.bind_left {first : Parser α} (hFirst : first.Refuses)
    (second : α → Parser β) : (first >>= second).Refuses := by
  intro cursor value after hRun
  obtain ⟨inner, between, hInner, _⟩ := run_bind_eq_ok_iff.mp hRun
  exact hFirst cursor inner between hInner

theorem Refuses.bind_right (first : Parser α) {second : α → Parser β}
    (hSecond : ∀ value, (second value).Refuses) : (first >>= second).Refuses := by
  intro cursor value after hRun
  obtain ⟨inner, between, _, hOuter⟩ := run_bind_eq_ok_iff.mp hRun
  exact hSecond inner between value after hOuter

theorem refuses_checkWord {token : Token} (hToken : token.isWordLike = false)
    (context : String) : (checkWord token context).Refuses := by
  rw [checkWord, if_neg (by simp [hToken])]
  exact refuses_rejectLast context

theorem refuses_numeral {interval : Numeral.Interval} {literal : Token}
    (hLiteral : Numeral.within? interval literal = none) (context : String) :
    (numeral interval literal context).Refuses := by
  rw [numeral, hLiteral]
  exact refuses_fail _

/-- In front of a comment the parser does not succeed, or it ends where nothing is said. -/
def Balks (parser : Parser α) (landing : Landing) : Prop :=
  ∀ cursor value after, ¬cursor.BeforeToken → parser.run cursor = .ok value after →
    ¬landing.Applies after

/-- What stays in front of a comment ends in front of a comment. -/
theorem balks_pure (value : α) : (pure value : Parser α).Balks .beforeToken := by
  intro cursor answer after hComment hRun
  cases hRun
  exact hComment

theorem Balks.bind {first : Parser α} (hFirst : first.Balks .level) (second : α → Parser β)
    (landing : Landing) : (first >>= second).Balks landing := by
  intro cursor value after hComment hRun
  obtain ⟨inner, between, hInner, _⟩ := run_bind_eq_ok_iff.mp hRun
  exact absurd trivial (hFirst cursor inner between hComment hInner)

/-- What refuses a comment as its first token does not succeed in front of one. -/
theorem balks_next_bind {expected context : String} {second : Token → Parser β}
    (hRefuses : ∀ token, token.isComment = true → (second token).Refuses) (landing : Landing) :
    (next expected context >>= second).Balks landing := by
  intro cursor value after hComment hRun
  obtain ⟨comment, later, hAhead, hIsComment⟩ := Cursor.exists_comment_of_not_beforeToken hComment
  rw [run_next_bind expected context hAhead] at hRun
  exact absurd hRun (hRefuses comment hIsComment _ _ _)

/-- A comment is not taken, so what follows starts in front of it. -/
theorem balks_takeIf_bind {accepts : Token → Bool} {second : Option Token → Parser β}
    {landing : Landing} (hAccepts : ∀ token, token.isComment = true → accepts token = false)
    (hNone : (second none).Balks landing) : (takeIf accepts >>= second).Balks landing := by
  intro cursor value after hComment hRun
  obtain ⟨comment, later, hAhead, hIsComment⟩ := Cursor.exists_comment_of_not_beforeToken hComment
  rw [run_takeIf_bind_none] at hRun
  · exact hNone cursor value after hComment hRun
  · intro token hHead
    rw [hAhead] at hHead
    cases hHead
    exact hAccepts comment hIsComment

theorem refuses_word_comment {token : Token} (hComment : token.isComment = true)
    (context : String) : (checkWord token context).Refuses :=
  refuses_checkWord (by simp [Token.isWordLike, hComment]) context

theorem balks_word (expected context : String) (landing : Landing) :
    (word expected context).Balks landing :=
  balks_next_bind (fun _ hComment => refuses_word_comment hComment context) landing

theorem balks_expect {token : Token} (hToken : token.isComment = false) (context : String)
    (landing : Landing) : (expect token context).Balks landing := by
  refine balks_next_bind (fun found hComment => ?_) landing
  rw [if_neg (Token.ne_of_comment hComment hToken)]
  exact refuses_rejectLast context

/-- A comment ahead is not the token to be eaten. -/
theorem balks_eat_bind {token : Token} {second : Bool → Parser α} {landing : Landing}
    (hComment : token.isComment = false) (hFalse : (second false).Balks landing) :
    (eat token >>= second).Balks landing := by
  simp only [eat, bind_assoc, pure_bind]
  refine balks_takeIf_bind (fun other hOther => ?_) hFalse
  exact beq_eq_false_iff_ne.mpr (Token.ne_of_comment hOther hComment)

/-! ## The comparison -/

/-- What the second run comes to when the first one has answered `value` at `after`. -/
def Outcome (landing : Landing) (change : α → β) (value : α) (after : Cursor)
    (reply : Reply β) : Prop :=
  (∃ bareAfter, reply = .ok (change value) bareAfter ∧ landing.Holds after bareAfter) ∨
    (Token.PassedValue after.seen ∧ ∃ fault bareAfter, reply = .error fault bareAfter)

/-- Where `parser` succeeds from the cursor, `bare` does so from an aligned one, or the first
run has taken a comment for a value and the second one fails. -/
def Mirrored (parser : Parser α) (bare : Parser β) (landing : Landing) (change : α → β)
    (cursor : Cursor) : Prop :=
  ∀ bareCursor, cursor.Aligned bareCursor → ∀ value after,
    parser.run cursor = .ok value after → landing.Applies after →
      Outcome landing change value after (bare.run bareCursor)

namespace Mirrored

variable {cursor : Cursor} {landing : Landing}

/-- A run that ends with the cursors aligned is as good as any. -/
theorem weaken {parser : Parser α} {bare : Parser β} {change : α → β}
    (hMirrored : Mirrored parser bare .level change cursor) (landing : Landing) :
    Mirrored parser bare landing change cursor := by
  intro bareCursor hAligned value after hRun _
  rcases hMirrored bareCursor hAligned value after hRun trivial with
    ⟨bareAfter, hBare, hHolds⟩ | hPassed
  · exact .inl ⟨bareAfter, hBare, .of_aligned landing hHolds⟩
  · exact .inr hPassed

theorem of_refuses {parser : Parser α} {bare : Parser β} {change : α → β}
    (hRefuses : parser.Refuses) : Mirrored parser bare landing change cursor :=
  fun _ _ value after hRun => absurd hRun (hRefuses cursor value after)

theorem pure {change : α → β} {value : α} {changed : β} (hChange : change value = changed) :
    Mirrored (pure value) (pure changed) landing change cursor := by
  intro bareCursor hAligned answer after hRun _
  cases hRun
  exact .inl ⟨bareCursor, by rw [hChange]; rfl, .of_aligned landing hAligned⟩

/-- The second parts are compared from where the first part has stopped.  Nothing may be
said about a semicolon between them. -/
theorem bind_of_applies {first : Parser α} {bareFirst : Parser γ} {second : α → Parser β}
    {bareSecond : γ → Parser δ} {change : α → γ} {changeLast : β → δ} (passing : Landing)
    (hPassing : passing ≠ .nearby) (hFirst : Mirrored first bareFirst passing change cursor)
    (hApplies : ∀ value between answer after, (second value).run between = .ok answer after →
      landing.Applies after → passing.Applies between)
    (hSecond : ∀ value between, first.run cursor = .ok value between →
      Mirrored (second value) (bareSecond (change value)) landing changeLast between) :
    Mirrored (first >>= second) (bareFirst >>= bareSecond) landing changeLast cursor := by
  intro bareCursor hAligned value after hRun hLanding
  obtain ⟨inner, between, hInner, hOuter⟩ := run_bind_eq_ok_iff.mp hRun
  have hBetween := hApplies inner between value after hOuter hLanding
  rcases hFirst bareCursor hAligned inner between hInner hBetween with
    ⟨bareBetween, hBare, hHolds⟩ | ⟨hPassed, fault, bareAfter, hBare⟩
  · have hOutcome := hSecond inner between hInner bareBetween (hHolds.aligned hPassing) value
      after hOuter hLanding
    rwa [run_bind, hBare]
  · refine .inr ⟨(onward_of_ok hOuter).passedValue hPassed, fault, bareAfter, ?_⟩
    rw [run_bind, hBare]

theorem bind {first : Parser α} {bareFirst : Parser γ} {second : α → Parser β}
    {bareSecond : γ → Parser δ} {change : α → γ} {changeLast : β → δ}
    (hFirst : Mirrored first bareFirst .level change cursor)
    (hSecond : ∀ value between, first.run cursor = .ok value between →
      Mirrored (second value) (bareSecond (change value)) landing changeLast between) :
    Mirrored (first >>= second) (bareFirst >>= bareSecond) landing changeLast cursor :=
  bind_of_applies .level (by decide) hFirst (fun _ _ _ _ _ _ => trivial) hSecond

/-- If a comment hides something from the first part, the second part has to balk at it. -/
theorem bind_of_balks {first : Parser α} {bareFirst : Parser γ} {second : α → Parser β}
    {bareSecond : γ → Parser δ} {change : α → γ} {changeLast : β → δ}
    (hFirst : Mirrored first bareFirst .beforeToken change cursor)
    (hBalks : ∀ value, (second value).Balks landing)
    (hSecond : ∀ value between, first.run cursor = .ok value between →
      Mirrored (second value) (bareSecond (change value)) landing changeLast between) :
    Mirrored (first >>= second) (bareFirst >>= bareSecond) landing changeLast cursor := by
  refine bind_of_applies .beforeToken (by decide) hFirst ?_ hSecond
  intro value between answer after hRun hLanding
  exact Classical.byContradiction fun hComment =>
    hBalks value between answer after hComment hRun hLanding

/-- A change of the answer alone leaves the ends of the runs as they are. -/
theorem bind_pure {first : Parser α} {bareFirst : Parser γ} {answer : α → β}
    {bareAnswer : γ → δ} {change : α → γ} {changeLast : β → δ}
    (hFirst : Mirrored first bareFirst landing change cursor)
    (hAnswer : ∀ value, changeLast (answer value) = bareAnswer (change value)) :
    Mirrored (first >>= fun value => Pure.pure (answer value))
      (bareFirst >>= fun value => Pure.pure (bareAnswer value)) landing changeLast cursor := by
  intro bareCursor hAligned value after hRun hLanding
  obtain ⟨inner, between, hInner, hOuter⟩ := run_bind_eq_ok_iff.mp hRun
  cases hOuter
  rcases hFirst bareCursor hAligned inner after hInner hLanding with
    ⟨bareAfter, hBare, hHolds⟩ | ⟨hPassed, fault, bareAfter, hBare⟩
  · refine .inl ⟨bareAfter, ?_, hHolds⟩
    rw [run_bind, hBare, hAnswer]
    rfl
  · refine .inr ⟨hPassed, fault, bareAfter, ?_⟩
    rw [run_bind, hBare]

theorem ofExcept {result : Except ParseError α} {bareResult : Except ParseError β}
    {change : α → β} (hResult : ∀ value, result = .ok value → bareResult = .ok (change value)) :
    Mirrored (Parser.ofExcept result) (Parser.ofExcept bareResult) landing change cursor := by
  cases result with
  | ok value =>
      rw [hResult value rfl]
      exact .pure rfl
  | error fault => exact of_refuses (refuses_fail fault)

/-! ## Single tokens -/

/-- A token is taken that a comment or an equals sign cannot stand in for: what follows
refuses it, or there is no comment ahead. -/
theorem next_bind {expected context : String} {second : Token → Parser α}
    {bareSecond : Token → Parser β} {change : α → β}
    (hComments : cursor.BeforeToken ∨
      ∀ token : Token, token.isComment = true → (second token).Refuses)
    (hEquals : (second "=").Refuses)
    (hSecond : ∀ (token : Token) (after : Cursor), token.isComment = false →
      Mirrored (second token) (bareSecond token) landing change after) :
    Mirrored (Parser.next expected context >>= second)
      (Parser.next expected context >>= bareSecond) landing change cursor := by
  intro bareCursor hAligned value after hRun hLanding
  obtain ⟨token, rest, hRest, hOuter⟩ := exists_of_run_next_bind hRun
  have hComment : token.isComment = false := by
    rcases hComments with hBefore | hRefuses
    · exact hBefore token (by rw [hRest]; rfl)
    · cases hToken : token.isComment with
      | true => exact absurd hOuter (hRefuses token hToken _ _ _)
      | false => rfl
  by_cases hSame : token = "="
  · exact absurd hOuter (hSame ▸ hEquals _ _ _)
  · obtain ⟨hBare, hPast⟩ := hAligned.past hRest hComment hSame
    rw [run_next_bind expected context hBare]
    exact hSecond token _ hComment _ hPast value after hOuter hLanding

theorem expect {token : Token} (hComment : token.isComment = false) (hEquals : token ≠ "=")
    (context : String) :
    Mirrored (expect token context) (expect token context) .level id cursor := by
  refine next_bind (.inr fun found hFound => ?_) ?_ fun found after _ => ?_
  · rw [if_neg (Token.ne_of_comment hFound hComment)]
    exact refuses_rejectLast context
  · rw [if_neg (Ne.symm hEquals)]
    exact refuses_rejectLast context
  · split
    · exact .pure rfl
    · exact of_refuses (refuses_rejectLast context)

theorem checkWord (token : Token) (context : String) :
    Mirrored (checkWord token context) (checkWord token context) landing id cursor := by
  unfold Parser.checkWord
  split
  · exact .pure rfl
  · exact of_refuses (refuses_rejectLast context)

theorem word (expected context : String) :
    Mirrored (word expected context) (word expected context) .level id cursor := by
  refine next_bind (.inr fun token hComment => refuses_word_comment hComment context) ?_
    fun token _ _ => checkWord token context
  exact refuses_checkWord (by decide) context

theorem numeral (interval : Numeral.Interval) (literal : Token) (context : String) :
    Mirrored (numeral interval literal context) (numeral interval literal context) landing id
      cursor := by
  unfold Parser.numeral
  split
  · exact .pure rfl
  · exact of_refuses (refuses_fail _)

/-- A token is taken if it is in a class that holds no comment.  In front of a comment what
follows has to balk, because the second run sees what is behind it. -/
theorem takeIf_bind {accepts : Token → Bool} {second : Option Token → Parser α}
    {bareSecond : Option Token → Parser β} {change : α → β}
    (hAccepts : ∀ token, accepts token = true → token.isComment = false ∧ token ≠ "=")
    (hSome : ∀ token after, accepts token = true →
      Mirrored (second (some token)) (bareSecond (some token)) landing change after)
    (hNone : Mirrored (second none) (bareSecond none) landing change cursor)
    (hBalks : cursor.BeforeToken ∨ (second none).Balks landing) :
    Mirrored (Parser.takeIf accepts >>= second) (Parser.takeIf accepts >>= bareSecond) landing
      change cursor := by
  intro bareCursor hAligned value after hRun hLanding
  cases hRest : cursor.rest with
  | nil =>
      have hBareRest := hAligned.rest_nil hRest
      rw [run_takeIf_bind_none (by simp [hRest])] at hRun
      rw [run_takeIf_bind_none (by simp [hBareRest])]
      exact hNone bareCursor hAligned value after hRun hLanding
  | cons token rest =>
      by_cases hTaken : accepts token = true
      · obtain ⟨hComment, hEquals⟩ := hAccepts token hTaken
        obtain ⟨hBare, hPast⟩ := hAligned.past hRest hComment hEquals
        rw [run_takeIf_bind hRest hTaken] at hRun
        rw [run_takeIf_bind hBare hTaken]
        exact hSome token _ hTaken _ hPast value after hRun hLanding
      · rw [run_takeIf_bind_none (by simpa [hRest] using hTaken)] at hRun
        by_cases hComment : token.isComment = true
        · -- the second run may take what the comment hides from the first
          have hAhead : ¬cursor.BeforeToken := by
            intro hBefore
            rw [hBefore token (by simp [hRest])] at hComment
            cases hComment
          exact absurd hLanding (hBalks.resolve_left hAhead cursor value after hAhead hRun)
        · have hComment : token.isComment = false := by simpa using hComment
          have hBare : bareCursor.rest.head? = some token := by
            rw [hAligned.rest_eq]
            exact Token.head?_withoutComments (by simp [hRest]) hComment
          rw [run_takeIf_bind_none (by simpa [hBare] using hTaken)]
          exact hNone bareCursor hAligned value after hRun hLanding

/-- One token is taken if it comes next. -/
theorem eat_bind {token : Token} {second : Bool → Parser α} {bareSecond : Bool → Parser β}
    {change : α → β} (hComment : token.isComment = false) (hEquals : token ≠ "=")
    (hTrue : ∀ after, Mirrored (second true) (bareSecond true) landing change after)
    (hFalse : Mirrored (second false) (bareSecond false) landing change cursor)
    (hBalks : cursor.BeforeToken ∨ (second false).Balks landing) :
    Mirrored (eat token >>= second) (eat token >>= bareSecond) landing change cursor := by
  simp only [Parser.eat, bind_assoc, pure_bind]
  refine takeIf_bind (fun taken hTaken => ?_) (fun _ after _ => hTrue after) hFalse hBalks
  rw [beq_iff_eq] at hTaken
  rw [hTaken]
  exact ⟨hComment, hEquals⟩

/-- One token is taken if it comes next, and what follows goes on alike in both cases. -/
theorem eat_bind_alike {token : Token} {second : Bool → Parser α} {bareSecond : Bool → Parser β}
    {change : α → β} (hComment : token.isComment = false) (hEquals : token ≠ "=")
    (hSecond : ∀ found after, Mirrored (second found) (bareSecond found) landing change after)
    (hBalks : cursor.BeforeToken ∨ (second false).Balks landing) :
    Mirrored (eat token >>= second) (eat token >>= bareSecond) landing change cursor :=
  eat_bind hComment hEquals (hSecond true) (hSecond false cursor) hBalks

/-- What comes next is looked at, and a comment makes what follows balk. -/
theorem peek_bind {second : Option Token → Parser α} {bareSecond : Option Token → Parser β}
    {change : α → β}
    (hSecond : ∀ ahead, Mirrored (second ahead) (bareSecond ahead) landing change cursor)
    (hBalks : ∀ comment, comment.isComment = true → (second (some comment)).Balks landing) :
    Mirrored (peek >>= second) (peek >>= bareSecond) landing change cursor := by
  intro bareCursor hAligned value after hRun hLanding
  have hAhead : (second cursor.rest[0]?).run cursor = .ok value after := hRun
  show Outcome landing change value after ((bareSecond bareCursor.rest[0]?).run bareCursor)
  rw [← List.head?_eq_getElem?] at hAhead ⊢
  by_cases hBefore : cursor.BeforeToken
  · have hSame : bareCursor.rest.head? = cursor.rest.head? := by
      rw [hAligned.rest_eq]
      cases hHead : cursor.rest.head? with
      | none => rw [List.head?_eq_none_iff.mp hHead, Token.withoutComments_nil, List.head?_nil]
      | some token => exact Token.head?_withoutComments hHead (hBefore token hHead)
    rw [hSame]
    exact hSecond _ bareCursor hAligned value after hAhead hLanding
  · obtain ⟨comment, later, hRest, hComment⟩ := Cursor.exists_comment_of_not_beforeToken hBefore
    rw [hRest, List.head?_cons] at hAhead
    exact absurd hLanding (hBalks comment hComment cursor value after hBefore hAhead)

/-- The second run finds no comments to take. -/
theorem takeComments :
    Mirrored takeComments takeComments .level (fun _ => []) cursor := by
  intro bareCursor hAligned value after hRun _
  cases hRun
  -- none of the tokens of the second run is a comment, in particular not the next one
  have hNone : ∀ token, bareCursor.rest.head? = some token → token.isComment = false := by
    intro token hHead
    rw [hAligned.rest_eq] at hHead
    exact Token.not_comment_of_mem (List.mem_of_mem_head? hHead)
  refine .inl ⟨bareCursor, ?_, ?_⟩
  · exact run_takeComments (by simp) hNone (List.nil_append _).symm
  · refine hAligned.past_comments (fun token hMem => ?_) List.takeWhile_append_dropWhile.symm
    exact List.all_eq_true.mp List.all_takeWhile token hMem

/-! ## Levels and blocks -/

theorem enter : Mirrored enter enter .level id cursor := by
  intro bareCursor hAligned value after hRun _
  have hRest := hAligned.rest_eq
  have hDepth := hAligned.depth_eq
  have hLimit := hAligned.limit_eq
  unfold Parser.enter Cursor.enter at hRun ⊢
  dsimp only at hRun ⊢
  by_cases hOpen : cursor.depth < cursor.limit
  · rw [if_pos hOpen] at hRun
    cases hRun
    rw [if_pos (by omega)]
    exact .inl ⟨_, rfl, hRest, by simp [hDepth], hLimit, hAligned.settled, hAligned.clean⟩
  · rw [if_neg hOpen] at hRun
    cases hRun

theorem leave : Mirrored leave leave .level id cursor := by
  intro bareCursor hAligned value after hRun _
  cases hRun
  refine .inl ⟨_, rfl, hAligned.rest_eq, ?_, hAligned.limit_eq, hAligned.settled,
    hAligned.clean⟩
  simp [Cursor.leave, hAligned.depth_eq]

end Mirrored
end Parser
end ProtoIdl
