import ProtoIdl.Proofs.Local.Grammar
import ProtoIdl.Proofs.Parser.MessageLoop

/-!
# Statements on tokens with more tokens after them

A statement of a file that is read to the last token is read in the same way from a longer
list, except that an enum or a service takes a semicolon that comes next.  A file that stops
at the end of the tokens goes on from there in a longer list, as if it had taken no such
semicolon: it would be skipped as an empty statement.
-/

namespace ProtoIdl

namespace Parser

/-- More tokens after the last one do not change the run from the cursor, apart from a report
that the tokens end, and from a semicolon that is taken where the run stopped at the end. -/
structure Closed (parser : Parser α) (cursor : Cursor) : Prop where
  ok : ∀ {value after}, parser.run cursor = .ok value after → ∀ more,
    parser.run (cursor.extended more) = .ok value (after.extended more) ∨
      after.rest = [] ∧ ∃ later, more = ";" :: later ∧
        parser.run (cursor.extended more) = .ok value (after.past ";" later)
  error : ∀ {fault after}, parser.run cursor = .error fault after →
    fault.EndsAt cursor.stop ∨ ∀ more, (parser.run (cursor.extended more)).Fails fault

/-- The place after a semicolon that may come next. -/
def afterSemicolon (cursor : Cursor) : Cursor :=
  match cursor.rest with
  | [] => cursor
  | token :: rest => if token = ";" then cursor.past token rest else cursor

theorem run_semicolon (value : α) (cursor : Cursor) :
    (eat ";" >>= fun _ => pure value).run cursor = .ok value (afterSemicolon cursor) := by
  simp only [eat, bind_assoc, pure_bind, afterSemicolon]
  cases hRest : cursor.rest with
  | nil => exact run_takeIf_bind_none (by simp [hRest])
  | cons token rest =>
      dsimp only
      split
      · next hSemicolon => exact run_takeIf_bind hRest (by simp [hSemicolon])
      · next hOther => exact run_takeIf_bind_none (by simp [hRest, hOther])

namespace Closed

variable {cursor : Cursor}

theorem of_settled {parser : Parser α} (hParser : Settled parser true cursor) :
    Closed parser cursor where
  ok hRun more := .inl (hParser.run_extended hRun more)
  error := hParser.error

/-- What starts with a firm part is closed if the rest of it is. -/
theorem bind {first : Parser α} {second : α → Parser β} (hFirst : Settled first true cursor)
    (hSecond : ∀ value between, first.run cursor = .ok value between →
      Closed (second value) between) : Closed (first >>= second) cursor where
  ok {value after} hRun more := by
    obtain ⟨inner, between, hInner, hOuter⟩ := run_bind_eq_ok_iff.mp hRun
    rw [run_bind, hFirst.run_extended hInner more]
    exact (hSecond inner between hInner).ok hOuter more
  error {fault after} hRun := by
    refine Settled.error_of_bind hFirst.error (fun inner between hInner hOuter => ?_) hRun
    refine ((hSecond inner between hInner).error hOuter).imp_right fun hSame more => ?_
    rw [run_bind, hFirst.run_extended hInner more]
    exact hSame more

/-- A change of the answer changes nothing else. -/
theorem map {parser : Parser α} (hParser : Closed parser cursor) (build : α → β) :
    Closed (parser >>= fun value => pure (build value)) cursor where
  ok {value after} hRun more := by
    obtain ⟨inner, between, hInner, hOuter⟩ := run_bind_eq_ok_iff.mp hRun
    cases hOuter
    rw [run_bind]
    refine (hParser.ok hInner more).imp ?_ fun ⟨hDone, later, hMore, hSame⟩ => ?_
    · intro hSame
      rw [hSame]
      rfl
    · rw [hSame]
      exact ⟨hDone, later, hMore, rfl⟩
  error hRun := by
    refine Settled.error_of_bind hParser.error (fun _ _ _ hOuter => ?_) hRun
    cases hOuter

/-- The semicolon that may come last. -/
theorem semicolon (value : α) : Closed (eat ";" >>= fun _ => pure value) cursor where
  ok {answer after} hRun more := by
    rw [run_semicolon] at hRun ⊢
    cases hRun
    cases hRest : cursor.rest with
    | nil =>
        simp only [afterSemicolon, Cursor.rest_extended, hRest, List.nil_append]
        cases more with
        | nil => exact .inl rfl
        | cons token later =>
            dsimp only
            split
            · next hSemicolon =>
                subst hSemicolon
                exact .inr ⟨trivial, later, rfl, rfl⟩
            · exact .inl rfl
    | cons token rest =>
        simp only [afterSemicolon, Cursor.rest_extended, hRest, List.cons_append]
        split <;> exact .inl rfl
  error hRun := by
    rw [run_semicolon] at hRun
    cases hRun

end Closed

/-! ## Heads of statements -/

/-- The head of a statement is its first token, with the comments before it. -/
theorem exists_of_run_statementHead {cursor between : Cursor} {head : List String × Token}
    (hRun : statementHead.run cursor = .ok (some head) between) :
    head.2.isComment = false ∧
      ∃ comments, (∀ token ∈ comments, token.isComment = true) ∧
        cursor.rest = comments ++ head.2 :: between.rest := by
  obtain ⟨comments, start, hComments, hAdvance⟩ := run_bind_eq_ok_iff.mp hRun
  cases hComments
  have hSplit : cursor.rest.takeWhile Token.isComment ++ cursor.rest.dropWhile Token.isComment =
      cursor.rest := List.takeWhile_append_dropWhile
  have hFirst := List.head?_dropWhile_not Token.isComment cursor.rest
  cases hDrop : cursor.rest.dropWhile Token.isComment with
  | nil =>
      simp only [run_bind, advance, hDrop] at hAdvance
      cases hAdvance
  | cons token rest =>
      simp only [run_bind, advance, hDrop] at hAdvance
      cases hAdvance
      rw [hDrop] at hSplit hFirst
      refine ⟨by simpa using hFirst, cursor.rest.takeWhile Token.isComment, ?_, hSplit.symm⟩
      exact List.all_eq_true.mp List.all_takeWhile

/-- Where no statement is left, there are only comments. -/
theorem comments_of_run_statementHead {cursor between : Cursor}
    (hRun : statementHead.run cursor = .ok none between) :
    between.rest = [] ∧ ∀ token ∈ cursor.rest, token.isComment = true := by
  obtain ⟨comments, start, hComments, hAdvance⟩ := run_bind_eq_ok_iff.mp hRun
  cases hComments
  cases hDrop : cursor.rest.dropWhile Token.isComment with
  | nil =>
      simp only [run_bind, advance, hDrop] at hAdvance
      cases hAdvance
      have hSplit : cursor.rest.takeWhile Token.isComment ++
          cursor.rest.dropWhile Token.isComment = cursor.rest := List.takeWhile_append_dropWhile
      rw [hDrop, List.append_nil] at hSplit
      rw [← hSplit]
      exact ⟨rfl, List.all_eq_true.mp List.all_takeWhile⟩
  | cons token rest =>
      simp only [run_bind, advance, hDrop] at hAdvance
      cases hAdvance

theorem run_statementHead_ne_error {fault : ParseError} {after : Cursor} (cursor : Cursor) :
    statementHead.run cursor ≠ .error fault after := by
  intro hRun
  simp only [statementHead, run_bind, takeComments, advance] at hRun
  cases hDrop : cursor.rest.dropWhile Token.isComment with
  | nil =>
      rw [hDrop] at hRun
      cases hRun
  | cons token rest =>
      rw [hDrop] at hRun
      cases hRun

/-- Induction on the statements ahead.  Only comments are left, or a statement starts, and
the property holds wherever its reading may have come to. -/
theorem statements_induction {motive : Cursor → Prop}
    (done : ∀ cursor between, statementHead.run cursor = .ok none between → motive cursor)
    (statement : ∀ cursor between head, statementHead.run cursor = .ok (some head) between →
      (∀ after, between.Onward after → motive after) → motive cursor)
    (cursor : Cursor) : motive cursor := by
  induction hLeft : cursor.left using Nat.strongRecOn generalizing cursor with
  | ind left ih =>
      cases hHead : statementHead.run cursor with
      | error refused stopped => exact absurd hHead (run_statementHead_ne_error cursor)
      | ok found between =>
          cases found with
          | none => exact done cursor between hHead
          | some head =>
              have hLess := statementHead.progress cursor _ between hHead rfl
              refine statement cursor between head hHead fun after hOnward => ?_
              have hLe := hOnward.left_le
              exact ih after.left (by omega) after rfl

/-- The head of a statement has been taken. -/
theorem seen_of_run_statementHead {cursor between : Cursor} {head : List String × Token}
    (hRun : statementHead.run cursor = .ok (some head) between) : between.seen ≠ [] :=
  (onward_of_ok hRun).seen_ne_nil_of_lt (statementHead.progress cursor _ between hRun rfl)

/-- The head of a statement is the same in a longer list. -/
theorem run_statementHead_extended {cursor between : Cursor} {head : List String × Token}
    (hRun : statementHead.run cursor = .ok (some head) between) (more : List Token) :
    statementHead.run (cursor.extended more) = .ok (some head) (between.extended more) := by
  obtain ⟨comments, start, hComments, hAdvance⟩ := run_bind_eq_ok_iff.mp hRun
  cases hRest : start.rest with
  | nil =>
      simp only [run_bind, advance, hRest] at hAdvance
      cases hAdvance
  | cons token rest =>
      have hMore := Settled.takeComments.ok hComments (fun _ => by simp [hRest]) more
      refine run_bind_eq_ok_iff.mpr ⟨comments, start.extended more, hMore, ?_⟩
      simp only [run_bind, advance, hRest] at hAdvance
      cases hAdvance
      simp only [run_bind, advance, Cursor.rest_extended, hRest, List.cons_append]
      rfl

end Parser

namespace Grammar

open ProtoIdl.Parser

variable {cursor : Cursor}

/-! ## Statements -/

theorem closed_enumRest : Closed enumRest cursor := by
  refine .bind (.word _ _) fun name afterName _ => ?_
  refine .bind (.expect _ _) fun _ afterBrace _ => ?_
  refine .bind (.memberLoop (fun decl head _ => settled_enumMember decl head) _ _)
    fun decl afterDecl _ => ?_
  exact .semicolon decl

theorem closed_serviceRest : Closed serviceRest cursor := by
  refine .bind (.word _ _) fun name afterName _ => ?_
  refine .bind (.expect _ _) fun _ afterBrace _ => ?_
  refine .bind (.memberLoop (fun service head _ => settled_serviceMember service head) _ _)
    fun service afterService _ => ?_
  exact .semicolon service

theorem closed_declaration (schema : Schema) (started : Bool) (comments : List String)
    (keyword : Option Keyword) (hSeen : cursor.seen ≠ []) :
    Closed (declaration schema started comments keyword) cursor := by
  -- all but enums and services end with a token that they require
  unfold declaration
  split
  · exact .of_settled (.bind settled_packageRest fun name _ _ => .pure _)
  · split
    · exact .of_settled (.fail _)
    · exact .of_settled (.bind settled_versionRest fun version _ _ => .pure _)
  · exact .of_settled (.bind settled_messageRest fun decl _ _ => .pure _)
  · exact .map closed_enumRest _
  · exact .of_settled (.bind (settled_bindOptionRest _) fun options _ _ => .pure _)
  · exact .of_settled (.bind settled_importRest fun entry _ _ => .pure _)
  · exact .of_settled (.bind settled_extendRest fun block _ _ => .pure _)
  · exact .map closed_serviceRest _
  · exact .of_settled (.rejectLast hSeen _)

theorem closed_statement (state : FileState) (head : List String × Token)
    (hSeen : cursor.seen ≠ []) : Closed (statement state head) cursor := by
  unfold statement
  split
  · exact .of_settled (.pure state)
  · exact .map (closed_declaration _ _ _ _ hSeen) _

/-! ## Lists of statements -/

section Loops

variable {item : σ → List String × Token → Parser σ}

/-- A semicolon that stands alone is skipped. -/
theorem run_statementLoop_semicolon (hSkips : ∀ state, item state ([], ";") = pure state)
    (state : σ) {later : List Token} (hRest : cursor.rest = ";" :: later) :
    (loop statementHead item state).run cursor =
      (loop statementHead item state).run (cursor.past ";" later) := by
  have hHead : statementHead.run cursor = .ok (some ([], ";")) (cursor.past ";" later) := by
    rcases cursor with ⟨base, seen, rest, depth, limit⟩
    cases hRest
    rfl
  rw [run_loop_of_some hHead, hSkips]
  rfl

/-- The error of statements that are read to an error stays the same in a longer list, unless it
says that the tokens end. -/
theorem fails_statementLoop_extended
    (hItem : ∀ state head (start : Cursor), start.seen ≠ [] → Closed (item state head) start)
    {state : σ} {after : Cursor} {fault : ParseError}
    (hRun : (loop statementHead item state).run cursor = .error fault after) :
    fault.EndsAt cursor.stop ∨
      ∀ more, ((loop statementHead item state).run (cursor.extended more)).Fails fault := by
  induction cursor using statements_induction generalizing state with
  | done cursor between hHead =>
      rw [run_loop_of_none hHead] at hRun
      cases hRun
  | statement cursor between head hHead ih =>
      have hClosed := hItem state head between (seen_of_run_statementHead hHead)
      have hMore : ∀ more, (loop statementHead item state).run (cursor.extended more) =
          (item state head >>= loop statementHead item).run (between.extended more) :=
        fun more => run_loop_of_some (run_statementHead_extended hHead more) state
      rw [run_loop_of_some hHead, run_bind] at hRun
      rw [← (onward_of_ok hHead).stop_eq]
      simp only [hMore]
      cases hStatement : (item state head).run between with
      | error refused stopped =>
          rw [hStatement] at hRun
          cases hRun
          exact (hClosed.error hStatement).imp_right fun hSame more => fails_bind (hSame more) _
      | ok grown next =>
          rw [hStatement] at hRun
          dsimp only at hRun
          have hOnward := onward_of_ok hStatement
          rw [← hOnward.stop_eq]
          refine (ih next hOnward hRun).imp_right fun hSame more => ?_
          rw [run_bind]
          rcases hClosed.ok hStatement more with hNext | ⟨hDone, _⟩
          · rw [hNext]
            exact hSame more
          · -- nothing is left, so the statements would have been read to their end
            rw [run_statementLoop_nil hDone] at hRun
            cases hRun

/-- Statements that are read to the last token are read on from there in a longer list. -/
theorem run_statementLoop_extended
    (hItem : ∀ state head (start : Cursor), start.seen ≠ [] → Closed (item state head) start)
    (hSkips : ∀ state, item state ([], ";") = pure state) {state final : σ} {last : Cursor}
    (hRun : (loop statementHead item state).run cursor = .ok final last)
    (hLast : ∀ token, cursor.rest.getLast? = some token → token.isComment = false)
    (more : List Token) :
    (loop statementHead item state).run (cursor.extended more) =
      (loop statementHead item final).run (last.extended more) := by
  induction cursor using statements_induction generalizing state with
  | done cursor between hHead =>
      -- the comments that are left would end the tokens, so there are none
      have hDone : cursor.rest = [] := by
        obtain ⟨_, hComments⟩ := comments_of_run_statementHead hHead
        rw [← List.getLast?_eq_none_iff]
        refine Option.eq_none_iff_forall_ne_some.mpr fun token hToken => ?_
        have hComment := hComments token (List.mem_of_getLast? hToken)
        rw [hLast token hToken] at hComment
        cases hComment
      rw [run_statementLoop_nil hDone] at hRun
      cases hRun
      rfl
  | statement cursor between head hHead ih =>
      have hClosed := hItem state head between (seen_of_run_statementHead hHead)
      rw [run_loop_of_some hHead] at hRun
      rw [run_loop_of_some (run_statementHead_extended hHead more)]
      obtain ⟨grown, next, hStatement, hRest⟩ := run_bind_eq_ok_iff.mp hRun
      have hOnward := onward_of_ok hStatement
      have hNextLast : ∀ token, next.rest.getLast? = some token → token.isComment = false := by
        obtain ⟨_, _, used, hUsed, _⟩ := (onward_of_ok hHead).trans hOnward
        intro token hToken
        refine hLast token ?_
        rw [hUsed, List.getLast?_append, hToken]
        rfl
      have hLater := ih next hOnward hRest hNextLast
      rw [run_bind]
      rcases hClosed.ok hStatement more with hNext | ⟨hDone, later, rfl, hNext⟩
      · rw [hNext]
        exact hLater
      · -- the semicolon that was taken would be skipped
        have hSemicolon : (next.extended (";" :: later)).rest = ";" :: later := by
          simp [hDone]
        rw [hNext, ← hLater, run_statementLoop_semicolon hSkips grown hSemicolon]
        rfl

end Loops

/-! ## Files -/

/-- The error of a file that is read to an error stays the same in a longer list, unless it
says that the tokens end. -/
theorem fails_statements_extended {state : FileState} {cursor after : Cursor}
    {fault : ParseError}
    (hRun : (loop statementHead statement state).run cursor = .error fault after) :
    fault.EndsAt cursor.stop ∨
      ∀ more, ((loop statementHead statement state).run (cursor.extended more)).Fails fault :=
  fails_statementLoop_extended (fun state head _ => closed_statement state head) hRun

/-- A file that is read to its last token is read on from there in a longer list. -/
theorem run_statements_extended {state final : FileState} {cursor last : Cursor}
    (hRun : (loop statementHead statement state).run cursor = .ok final last)
    (hLast : ∀ token, cursor.rest.getLast? = some token → token.isComment = false)
    (more : List Token) :
    (loop statementHead statement state).run (cursor.extended more) =
      (loop statementHead statement final).run (last.extended more) :=
  run_statementLoop_extended (fun state head _ => closed_statement state head) (fun _ => rfl) hRun
    hLast more

end Grammar
end ProtoIdl
