import ProtoIdl.Proofs.Parser.Reading

/-!
# Braced lists of members

A braced list means what its members mean, one after the other.  `Written comments part tokens`
says how a member may be written after a run of comments, and `add` what it does to the state;
`WrittenMembers` is a whole list.  The loop over such a list comes to the fold of `add` over its
members, be it a state or the first fault (`gives_members`).

A member may take a semicolon that follows it.  Then an empty statement is missing from the
list, and it has no effect.
-/

namespace ProtoIdl
namespace Parser

variable {levels : Nat} {ahead middle later : List Token}

/-! ## What a computation comes to -/

/-- With `ahead` in front of it the parser answers the value of the computation and leaves
`later`, or it fails with the fault of the computation. -/
def Gives (parser : Parser α) (levels : Nat) (ahead : List Token) (result : Except ParseError α)
    (later : List Token) : Prop :=
  match result with
  | .ok value => parser.Reads levels ahead value later
  | .error fault => parser.FailsOn levels ahead fault

namespace Gives

theorem ofExcept (result : Except ParseError α) :
    (ofExcept result).Gives levels ahead result ahead := by
  cases result with
  | ok value => exact .pure value
  | error fault => exact failsOn_fail fault

/-- What is read first is behind, and the second parser decides. -/
theorem bind_reads {first : Parser α} {second : α → Parser β} {value : α}
    {result : Except ParseError β} (hFirst : first.Reads levels ahead value middle)
    (hSecond : (second value).Gives levels middle result later) :
    (first >>= second).Gives levels ahead result later := by
  cases result with
  | ok answer => exact hFirst.bind hSecond
  | error fault => exact (GoesOn.bind hFirst).failsOn hSecond

/-- Computations compose as the parsers that come to them. -/
theorem bind {first : Parser α} {second : α → Parser β} {result : Except ParseError α}
    {next : α → Except ParseError β} (hFirst : first.Gives levels ahead result middle)
    (hSecond : ∀ value, result = .ok value →
      (second value).Gives levels middle (next value) later) :
    (first >>= second).Gives levels ahead (result >>= next) later := by
  cases result with
  | ok value => exact .bind_reads hFirst (hSecond value rfl)
  | error fault => exact FailsOn.bind hFirst second

theorem map {parser : Parser α} {result : Except ParseError α} (change : α → β)
    (hParser : parser.Gives levels ahead result later) :
    (parser >>= fun value => Pure.pure (change value)).Gives levels ahead
      (result >>= fun value => .ok (change value)) later :=
  hParser.bind fun value _ => .pure (change value)

/-- What is taken afterwards changes nothing in the answer. -/
theorem bind_keeps {parser : Parser α} {second : α → Parser α} {result : Except ParseError α}
    (hParser : parser.Gives levels ahead result middle)
    (hSecond : ∀ value, (second value).Reads levels middle value later) :
    (parser >>= second).Gives levels ahead result later := by
  cases result with
  | ok value => exact .bind_reads hParser (hSecond value)
  | error fault => exact FailsOn.bind hParser second

end Gives

/-! ## A semicolon that may follow -/

/-- The tokens after a semicolon, if they begin with one. -/
def dropSemicolon (tokens : List Token) : List Token :=
  if tokens.head? = some ";" then tokens.tail else tokens

theorem dropSemicolon_eq_or (tokens : List Token) :
    dropSemicolon tokens = tokens ∨ tokens = ";" :: dropSemicolon tokens := by
  by_cases hHead : tokens.head? = some ";"
  · obtain ⟨rest, rfl⟩ := List.head?_eq_some_iff.mp hHead
    exact .inr rfl
  · exact .inl (if_neg hHead)

theorem reads_dropSemicolon (value : α) :
    (eat ";" >>= fun _ => pure value).Reads levels later value (dropSemicolon later) := by
  by_cases hHead : later.head? = some ";"
  · obtain ⟨rest, rfl⟩ := List.head?_eq_some_iff.mp hHead
    exact .bind (reads_eat _) (.pure value)
  · rw [dropSemicolon, if_neg hHead]
    exact .bind (reads_eat_other hHead) (.pure value)

/-! ## Members -/

/-- The members of a list, each after a run of comments. -/
inductive WrittenMembers (Written : List Token → ξ → List Token → Prop) :
    List ξ → List Token → Prop
  | nil : WrittenMembers Written [] []
  | cons {part : ξ} {parts : List ξ} {comments tokens rest : List Token}
      (hComments : ∀ token ∈ comments, token.isComment = true)
      (hPart : Written comments part tokens) (hRest : WrittenMembers Written parts rest) :
      WrittenMembers Written (part :: parts) (comments ++ (tokens ++ rest))

variable {Written : List Token → ξ → List Token → Prop} {add : σ → ξ → Except ParseError σ}
  {item : σ → List String × Token → Parser σ}

/-- How the members of a list are read, of which the comments and the first token have been
taken. -/
structure GivesMembers (levels : Nat) (Written : List Token → ξ → List Token → Prop)
    (add : σ → ξ → Except ParseError σ) (item : σ → List String × Token → Parser σ) : Prop where
  /-- A member begins with a token that can begin one, and has its effect on the state.  A
  semicolon after it may be taken. -/
  item {comments tokens : List Token} {part : ξ} (hPart : Written comments part tokens) :
    ∃ first rest, tokens = first :: rest ∧ first.isComment = false ∧ first ≠ Token.closeBrace ∧
      ∀ state later, ∃ after, (after = later ∨ later = ";" :: after) ∧
        (item state (comments.map Token.commentBody, first)).Gives levels (rest ++ later)
          (add state part) after
  /-- What begins with a semicolon is an empty statement. -/
  empty {comments rest : List Token} {part : ξ} (hPart : Written comments part (";" :: rest)) :
    rest = [] ∧ ∀ state, add state part = .ok state

/-- One round of a loop over members. -/
theorem gives_loop_item {context : String} {comments tokens after : List Token} {first : Token}
    {state : σ} {result : Except ParseError σ} {next : σ → Except ParseError σ}
    (hComments : ∀ token ∈ comments, token.isComment = true) (hFirst : first.isComment = false)
    (hClose : first ≠ Token.closeBrace)
    (hItem : (item state (comments.map Token.commentBody, first)).Gives levels tokens result after)
    (hLoop : ∀ grown, (loop (memberHead context) item grown).Gives levels after (next grown)
      later) :
    (loop (memberHead context) item state).Gives levels (comments ++ first :: tokens)
      (result >>= next) later := by
  rw [loop_eq]
  exact .bind_reads (reads_memberHead_some hComments hFirst hClose)
    (hItem.bind fun grown _ => hLoop grown)

/-- A semicolon in front of the end of a list is one of its tokens: neither the comments before
the closing brace nor the brace is a semicolon. -/
theorem exists_of_semicolon {tokens closing after later : List Token}
    (hClosing : ∀ token ∈ closing, token.isComment = true)
    (hAhead : tokens ++ (closing ++ Token.closeBrace :: later) = ";" :: after) :
    ∃ others, tokens = ";" :: others ∧
      after = others ++ (closing ++ Token.closeBrace :: later) := by
  cases tokens with
  | cons token others =>
      cases hAhead
      exact ⟨others, rfl, rfl⟩
  | nil =>
      cases closing with
      | nil => exact absurd (List.cons.inj hAhead).1 (by decide)
      | cons token closing =>
          have hComment := hClosing token (by simp)
          rw [(List.cons.inj hAhead).1] at hComment
          exact absurd hComment (by decide)

/-- A loop over written members comes to the fold of their effects, also where a member before
them has taken the semicolon that they begin with. -/
theorem gives_members_aux (hMembers : GivesMembers levels Written add item) {parts : List ξ}
    {tokens closing : List Token} (hWritten : WrittenMembers Written parts tokens)
    (hClosing : ∀ token ∈ closing, token.isComment = true) (context : String)
    (later : List Token) :
    (∀ state, (loop (memberHead context) item state).Gives levels
      (tokens ++ (closing ++ Token.closeBrace :: later)) (parts.foldlM add state) later) ∧
    ∀ after, tokens = ";" :: after → ∀ state,
      (loop (memberHead context) item state).Gives levels
        (after ++ (closing ++ Token.closeBrace :: later)) (parts.foldlM add state) later := by
  induction hWritten with
  | nil =>
      refine ⟨fun state => ?_, fun after hTokens => nomatch hTokens⟩
      exact reads_loop_done (reads_memberHead_none hClosing)
  | @cons part parts comments tokens rest hComments hPart hRest ih =>
      obtain ⟨first, body, rfl, hFirst, hClose, hItem⟩ := hMembers.item hPart
      refine ⟨fun state => ?_, fun after hTokens state => ?_⟩
      · have hShape : comments ++ (first :: body ++ rest) ++
            (closing ++ Token.closeBrace :: later) =
              comments ++ first :: (body ++ (rest ++ (closing ++ Token.closeBrace :: later))) := by
          simp
        rw [hShape, List.foldlM_cons]
        obtain ⟨after, rfl | hAfter, hGives⟩ :=
          hItem state (rest ++ (closing ++ Token.closeBrace :: later))
        · exact gives_loop_item hComments hFirst hClose hGives ih.1
        · obtain ⟨others, rfl, rfl⟩ := exists_of_semicolon hClosing hAfter
          exact gives_loop_item hComments hFirst hClose hGives (ih.2 others rfl)
      · -- a member that begins with the semicolon is the empty statement
        cases comments with
        | cons token comments =>
            have hComment := hComments token (by simp)
            rw [(List.cons.inj hTokens).1] at hComment
            exact absurd hComment (by decide)
        | nil =>
            obtain ⟨rfl, hTail⟩ := List.cons.inj hTokens
            obtain ⟨rfl, hNothing⟩ := hMembers.empty hPart
            obtain rfl : rest = after := hTail
            rw [List.foldlM_cons, hNothing]
            exact ih.1 state

/-- A loop over written members comes to the fold of their effects. -/
theorem gives_members (hMembers : GivesMembers levels Written add item) {parts : List ξ}
    {tokens closing : List Token} (hWritten : WrittenMembers Written parts tokens)
    (hClosing : ∀ token ∈ closing, token.isComment = true) (context : String) (state : σ)
    (later : List Token) :
    (loop (memberHead context) item state).Gives levels
      (tokens ++ (closing ++ Token.closeBrace :: later)) (parts.foldlM add state) later :=
  (gives_members_aux hMembers hWritten hClosing context later).1 state

/-! ## Parsers that accept the same -/

/-- The two parsers accept the same with the same answers; they may differ in their faults. -/
def SameAnswers (first second : Parser α) : Prop :=
  ∀ cursor value after, first.run cursor = .ok value after ↔ second.run cursor = .ok value after

namespace SameAnswers

theorem refl (parser : Parser α) : parser.SameAnswers parser :=
  fun _ _ _ => Iff.rfl

theorem bind (parser : Parser α) {first second : α → Parser β}
    (hSame : ∀ value, (first value).SameAnswers (second value)) :
    (parser >>= first).SameAnswers (parser >>= second) := by
  intro cursor value after
  rw [run_bind_eq_ok_iff, run_bind_eq_ok_iff]
  simp only [hSame _ _ _ _]

theorem bind_left {first second : Parser α} (hSame : first.SameAnswers second)
    (parser : α → Parser β) : (first >>= parser).SameAnswers (second >>= parser) := by
  intro cursor value after
  rw [run_bind_eq_ok_iff, run_bind_eq_ok_iff]
  simp only [hSame _ _ _]

/-- Loops over items that accept the same accept the same. -/
theorem loop {head : Head η} {first second : σ → η → Parser σ}
    (hSame : ∀ state found, (first state found).SameAnswers (second state found)) (state : σ) :
    (Parser.loop head first state).SameAnswers (Parser.loop head second state) := by
  intro cursor
  -- a head that finds an item has taken a token, so fewer are left for the rest of the loop
  induction hLeft : cursor.left using Nat.strongRecOn generalizing state cursor with
  | _ left ih =>
      intro value after
      rw [loop_eq head first, loop_eq head second, run_bind_eq_ok_iff, run_bind_eq_ok_iff]
      refine exists_congr fun found => exists_congr fun between => and_congr_right fun hHead => ?_
      cases found with
      | none => exact Iff.rfl
      | some found =>
          dsimp only
          rw [run_bind_eq_ok_iff, run_bind_eq_ok_iff]
          refine exists_congr fun grown => exists_congr fun stop => ?_
          rw [hSame state found between grown stop]
          refine and_congr_right fun hItem => ih _ ?_ grown stop rfl value after
          rw [← hLeft]
          exact Nat.lt_of_le_of_lt (onward_of_ok hItem).left_le
            (head.progress cursor _ _ hHead rfl)

end SameAnswers

end Parser
end ProtoIdl
