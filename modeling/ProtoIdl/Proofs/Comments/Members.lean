import ProtoIdl.Proofs.Comments.Structure

/-!
# Lists of members, with and without comments

A construct with a body may be followed by a semicolon.  When comments stand before that
semicolon, it is left to the list around the construct, which reads it as an empty member;
without the comments it belongs to the construct.  The two runs are then a semicolon apart
until the list has read the empty member, so a list of members is compared from cursors
that are near each other.
-/

namespace ProtoIdl
namespace Parser

variable {cursor bare : Cursor}

/-! ## Heads of members -/

/-- What a comparison needs to know of the head of a member: it takes the comments before
the member and its first token, which is not a comment. -/
structure ReadsMembers (head : Head (List String × Token)) : Prop where
  done : ∀ {cursor bare after : Cursor}, cursor.Aligned bare →
    head.run cursor = .ok none after →
      ∃ bareAfter, head.run bare = .ok none bareAfter ∧ after.Aligned bareAfter
  found : ∀ {cursor bare after : Cursor} {comments : List String} {token : Token},
    cursor.Aligned bare → head.run cursor = .ok (some (comments, token)) after →
      token.isComment = false ∧ (token ≠ "=" →
        ∃ bareAfter, head.run bare = .ok (some ([], token)) bareAfter ∧ after.Aligned bareAfter)
  semicolon : ∀ {cursor : Cursor} {comments later : List Token},
    (∀ token ∈ comments, token.isComment = true) → cursor.rest = comments ++ ";" :: later →
      head.run cursor =
        .ok (some (comments.map Token.commentBody, ";"))
          { cursor with
            seen := ";" :: (comments.reverse ++ cursor.seen)
            rest := later }

/-- The comments are taken, and in the other run there are none. -/
theorem aligned_takeComments {after : Cursor} {comments : List String}
    (hAligned : cursor.Aligned bare) (hRun : takeComments.run cursor = .ok comments after) :
    ∃ bareAfter, takeComments.run bare = .ok [] bareAfter ∧ after.Aligned bareAfter := by
  rcases Mirrored.takeComments bare hAligned comments after hRun trivial with
    hOk | ⟨_, fault, bareAfter, hError⟩
  · exact hOk
  · cases hError

/-- What is left of a head once the comments are taken: it takes one token and announces it,
unless the token closes the list.  At the end of the tokens it finds no member, or fails. -/
structure ReportsToken (step : List String → Parser (Option (List String × Token)))
    (closes : Token → Bool) : Prop where
  cons : ∀ {cursor : Cursor} {comments : List String} {token : Token} {rest : List Token},
    cursor.rest = token :: rest →
      (step comments).run cursor =
        .ok (if closes token then none else some (comments, token)) (cursor.past token rest)
  nil : ∀ {cursor after : Cursor} {comments : List String}
    {found : Option (List String × Token)},
    cursor.rest = [] → (step comments).run cursor = .ok found after →
      found = none ∧ after = cursor ∧
        ∀ bare : Cursor, bare.rest = [] → (step []).run bare = .ok none bare

/-- Both kinds of heads take the comments and then one token. -/
theorem ReportsToken.readsMembers {head : Head (List String × Token)}
    {step : List String → Parser (Option (List String × Token))} {closes : Token → Bool}
    (hStep : ReportsToken step closes) (hHead : head.toParser = takeComments >>= step)
    (hCloses : ∀ token, closes token = true → token = Token.closeBrace) : ReadsMembers head where
  done := by
    intro cursor bare after hAligned hRun
    rw [hHead] at hRun ⊢
    obtain ⟨comments, between, hComments, hTaken⟩ := run_bind_eq_ok_iff.mp hRun
    obtain ⟨bareBetween, hBare, hBetween⟩ := aligned_takeComments hAligned hComments
    rw [run_bind, hBare]
    cases hRest : between.rest with
    | nil =>
        obtain ⟨-, rfl, hEnd⟩ := hStep.nil hRest hTaken
        exact ⟨bareBetween, hEnd bareBetween (hBetween.rest_nil hRest), hBetween⟩
    | cons token rest =>
        rw [hStep.cons hRest] at hTaken
        by_cases hClose : closes token = true
        · rw [if_pos hClose] at hTaken
          cases hTaken
          have hBrace := hCloses token hClose
          obtain ⟨hBareRest, hPast⟩ :=
            hBetween.past hRest (by rw [hBrace]; decide) (by rw [hBrace]; decide)
          refine ⟨_, ?_, hPast⟩
          dsimp only
          rw [hStep.cons hBareRest, if_pos hClose]
        · rw [if_neg hClose] at hTaken
          cases hTaken
  found := by
    intro cursor bare after comments token hAligned hRun
    rw [hHead] at hRun ⊢
    obtain ⟨bodies, between, hComments, hTaken⟩ := run_bind_eq_ok_iff.mp hRun
    obtain ⟨bareBetween, hBare, hBetween⟩ := aligned_takeComments hAligned hComments
    rw [run_bind, hBare]
    cases hRest : between.rest with
    | nil => cases (hStep.nil hRest hTaken).1
    | cons first rest =>
        rw [hStep.cons hRest] at hTaken
        by_cases hClose : closes first = true
        · rw [if_pos hClose] at hTaken
          cases hTaken
        · rw [if_neg hClose] at hTaken
          cases hTaken
          -- the comments have all been taken, so the token is none
          have hComment := beforeToken_of_takeComments hComments token (by rw [hRest]; rfl)
          refine ⟨hComment, fun hEquals => ?_⟩
          obtain ⟨hBareRest, hPast⟩ := hBetween.past hRest hComment hEquals
          refine ⟨_, ?_, hPast⟩
          dsimp only
          rw [hStep.cons hBareRest, if_neg hClose]
  semicolon := by
    intro cursor comments later hComments hRest
    have hOpen : ¬closes ";" = true := fun hClose => absurd (hCloses ";" hClose) (by decide)
    have hStop : ∀ token, (";" :: later : List Token).head? = some token →
        token.isComment = false := by
      rintro token ⟨⟩
      decide
    rw [hHead, run_bind, run_takeComments hComments hStop hRest]
    dsimp only
    rw [hStep.cons rfl, if_neg hOpen]
    rfl

theorem readsMembers_memberHead (context : String) : ReadsMembers (memberHead context) := by
  have hStep : ReportsToken
      (fun comments => do
        let token ← next Token.closeBrace context
        return if token = Token.closeBrace then none else some (comments, token))
      (fun token => token = Token.closeBrace) := by
    constructor
    · intro cursor comments token rest hRest
      rw [run_next_bind _ _ hRest]
      simp
    · intro cursor after comments found hRest hRun
      obtain ⟨token, rest, hCons, _⟩ := exists_of_run_next_bind hRun
      rw [hRest] at hCons
      cases hCons
  exact hStep.readsMembers rfl fun token hClose => by simpa using hClose

theorem readsMembers_statementHead : ReadsMembers statementHead := by
  have hStep : ReportsToken
      (fun comments => do
        let token ← advance
        return token.map fun first => (comments, first))
      (fun _ => false) := by
    constructor
    · intro cursor comments token rest hRest
      rw [run_bind, run_advance_cons hRest]
      rfl
    · intro cursor after comments found hRest hRun
      have hStay : ∀ bare : Cursor, bare.rest = [] → advance.run bare = .ok none bare := by
        intro bare hBare
        simp only [advance, hBare]
      rw [run_bind, hStay cursor hRest] at hRun
      cases hRun
      refine ⟨rfl, rfl, fun bare hBare => ?_⟩
      rw [run_bind, hStay bare hBare]
      rfl
  exact hStep.readsMembers rfl fun token hClose => by cases hClose

/-! ## Loops over members -/

/-- The members of a list are compared one by one, from cursors that are near each other.  A
semicolon on its own is no member, and where it sets the cursors apart the first run reads it
before anything else. -/
theorem outcome_loop {head : Head (List String × Token)} (hHead : ReadsMembers head)
    {item : σ → List String × Token → Parser σ} {change : σ → σ}
    (hSkip : ∀ state comments, item state (comments, ";") = pure state)
    (hEquals : ∀ state comments, (item state (comments, "=")).Refuses)
    (hItem : ∀ state comments token (start : Cursor), start.left < cursor.left →
      Mirrored (item state (comments, token)) (item (change state) ([], token)) .nearby change
        start)
    (state : σ) (hNear : cursor.Near bare) {final : σ} {after : Cursor}
    (hRun : (loop head item state).run cursor = .ok final after) :
    Outcome .level change final after ((loop head item (change state)).run bare) := by
  induction hLeft : cursor.left using Nat.strongRecOn generalizing state cursor bare with
  | ind left ih =>
      rw [loop_eq] at hRun
      obtain ⟨found, between, hFound, hRound⟩ := run_bind_eq_ok_iff.mp hRun
      rcases hNear with hAligned | ⟨comments, later, hComments, hRest, hAligned⟩
      · cases found with
        | none =>
            cases hRound
            obtain ⟨bareAfter, hBare, hAfter⟩ := hHead.done hAligned hFound
            refine .inl ⟨bareAfter, ?_, hAfter⟩
            rw [loop_eq, run_bind, hBare]
            rfl
        | some found =>
            obtain ⟨comments, token⟩ := found
            have hLess := head.progress cursor _ between hFound rfl
            obtain ⟨grown, next, hMember, hLater⟩ := run_bind_eq_ok_iff.mp hRound
            have hNext := (onward_of_ok hMember).left_le
            have hItems : ∀ state comments token (start : Cursor), start.left < next.left →
                Mirrored (item state (comments, token)) (item (change state) ([], token))
                  .nearby change start :=
              fun state comments token start hStart =>
                hItem state comments token start (by omega)
            obtain ⟨-, hAlike⟩ := hHead.found hAligned hFound
            by_cases hSame : token = "="
            · exact absurd hMember (hSame ▸ hEquals state comments _ _ _)
            · obtain ⟨bareBetween, hBare, hBetween⟩ := hAlike hSame
              have hRest := hItem state comments token between hLess bareBetween hBetween grown
                next hMember trivial
              rw [loop_eq, run_bind, hBare]
              dsimp only
              -- either the loops go on, or the second one has failed at this member for good
              rcases hRest with ⟨bareNext, hBareMember, hNear⟩ | ⟨hSlip, fault, last, hBareMember⟩
              · rw [run_bind, hBareMember]
                exact ih next.left (by omega) hItems grown hNear hLater rfl
              · rw [run_bind, hBareMember]
                exact .inr ⟨(onward_of_ok hLater).passedValue hSlip, fault, last, rfl⟩
      · -- the first run is a semicolon behind: it reads an empty member and catches up
        have hLess := head.progress cursor found between hFound
        rw [hHead.semicolon hComments hRest] at hFound
        cases hFound
        have hLess := hLess rfl
        obtain ⟨grown, next, hMember, hLater⟩ := run_bind_eq_ok_iff.mp hRound
        rw [hSkip] at hMember
        cases hMember
        refine ih _ (by rw [← hLeft]; exact hLess) ?_ state (.inl hAligned) hLater rfl
        intro state comments token start hStart
        exact hItem state comments token start (by omega)

namespace Mirrored

/-- A list of members, from aligned cursors. -/
theorem memberLoop {head : Head (List String × Token)} (hHead : ReadsMembers head)
    {item : σ → List String × Token → Parser σ} {change : σ → σ}
    (hSkip : ∀ state comments, item state (comments, ";") = Pure.pure state)
    (hEquals : ∀ state comments, (item state (comments, "=")).Refuses)
    (hItem : ∀ state comments token (start : Cursor),
      Mirrored (item state (comments, token)) (item (change state) ([], token)) .nearby change
        start)
    (state : σ) :
    Mirrored (loop head item state) (loop head item (change state)) .level change cursor := by
  intro bareCursor hAligned final after hRun _
  exact outcome_loop hHead hSkip hEquals
    (fun state comments token start _ => hItem state comments token start) state (.inl hAligned)
    hRun

/-- A semicolon is taken if one follows.  With comments before it only the second run takes
it. -/
theorem optionalSemicolon {change : α → β} {value : α} {changed : β}
    (hChange : change value = changed) :
    Mirrored (eat ";" >>= fun _ => Pure.pure value) (eat ";" >>= fun _ => Pure.pure changed)
      .nearby change cursor := by
  by_cases hBefore : cursor.BeforeToken
  · exact eat_bind (by decide) (by decide) (fun _ => .pure hChange) (.pure hChange)
      (.inl hBefore)
  · intro bareCursor hAligned answer after hRun _
    obtain ⟨comment, later, hAhead, hComment⟩ :=
      Cursor.exists_comment_of_not_beforeToken hBefore
    -- the first run does not get past the comment
    have hStay : answer = value ∧ after = cursor := by
      simp only [Parser.eat, bind_assoc, pure_bind] at hRun
      rw [run_takeIf_bind_none] at hRun
      · cases hRun
        exact ⟨rfl, rfl⟩
      · intro token hHead
        rw [hAhead] at hHead
        cases hHead
        exact beq_eq_false_iff_ne.mpr (Token.ne_of_comment hComment (by decide))
    obtain ⟨rfl, rfl⟩ := hStay
    simp only [Parser.eat, bind_assoc, pure_bind]
    cases hBare : bareCursor.rest with
    | nil =>
        rw [run_takeIf_bind_none (by simp [hBare]), run_pure, ← hChange]
        exact .inl ⟨bareCursor, rfl, .inl hAligned⟩
    | cons token rest =>
        by_cases hSemicolon : token = ";"
        · -- the second run takes a semicolon that the first one still has ahead
          subst hSemicolon
          rw [run_takeIf_bind hBare (by simp), run_pure, ← hChange]
          have hTokens := hAligned.rest_eq.symm.trans hBare
          obtain ⟨comments, behind, hSplit, hComments, hToken, hRest⟩ :=
            Token.exists_of_withoutComments_eq_cons hTokens
          have hCaught := (hAligned.past_comments hComments hSplit).past rfl hToken (by decide)
          rw [hRest] at hCaught
          exact .inl ⟨_, rfl, .inr ⟨comments, behind, hComments, hSplit, hCaught.2⟩⟩
        · rw [run_takeIf_bind_none (by simpa [hBare] using hSemicolon), run_pure, ← hChange]
          exact .inl ⟨bareCursor, rfl, .inl hAligned⟩

end Mirrored
end Parser
end ProtoIdl
