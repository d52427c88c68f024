import ProtoIdl.Proofs.Trace.Alike

/-!
# Runs and the tokens behind them

A run that goes by primitive steps does not look at the tokens that had been passed before it
started.  Where such tokens are counted to the base of the cursor instead, the run answers the
same, with the same places in its errors.
-/

namespace ProtoIdl

/-- The same place, with more tokens passed before the others and counted from `base`. -/
def Cursor.behind (cursor : Cursor) (base : Nat) (before : List Token) : Cursor :=
  { cursor with base := base, seen := cursor.seen ++ before }

/-- The same value where the same tokens are ahead, or the same error. -/
def Reply.Agrees : Reply α → Reply α → Prop
  | .ok value after, .ok other last => value = other ∧ after.Alike last
  | .error fault _, .error other _ => fault = other
  | _, _ => False

/-- What is told again at another place, alike in both runs, agrees if it agreed before. -/
theorem Reply.Agrees.finish {first second : Reply α} (hAgrees : first.Agrees second)
    {done other : Cursor} (hAlike : done.Alike other) :
    (first.finish (fun _ => done) fun _ => done).Agrees
      (second.finish (fun _ => other) fun _ => other) := by
  cases first with
  | ok value after =>
      cases second with
      | ok answer last => exact ⟨hAgrees.1, hAlike⟩
      | error fault last => exact hAgrees
  | error fault after =>
      cases second with
      | ok answer last => exact hAgrees
      | error other last => exact hAgrees

namespace Cursor

variable {cursor : Cursor} {base : Nat} {before : List Token}

theorem index_behind (hBase : cursor.base = base + before.length) :
    (cursor.behind base before).index = cursor.index := by
  simp only [index, behind, List.length_append, hBase]
  omega

theorem stop_behind (hBase : cursor.base = base + before.length) :
    (cursor.behind base before).stop = cursor.stop := by
  rw [stop, index_behind hBase]
  rfl

end Cursor

namespace Parser

variable {base : Nat} {before : List Token}

/-- A run that goes by primitive steps is the same wherever tokens before it are counted. -/
theorem Traced.run_behind {parser : Parser α} {cursor : Cursor} (hTraced : parser.Traced cursor)
    (hBase : cursor.base = base + before.length) :
    parser.run (cursor.behind base before) =
      (parser.run cursor).finish (·.behind base before) (·.behind base before) := by
  induction hTraced with
  | pure | fail | peekNth | leave => rfl
  | rejectNth =>
      simp only [Parser.rejectNth, Cursor.unexpectedNth, Cursor.index_behind hBase]
      rfl
  | @rejectLast _ cursor context hSeen =>
      obtain ⟨token, passed, hCons⟩ := List.exists_cons_of_ne_nil hSeen
      have hPlace : base + (passed ++ before).length = cursor.base + passed.length := by
        rw [List.length_append, hBase]
        omega
      simp only [Parser.rejectLast, Cursor.unexpectedLast, Cursor.behind, hCons, List.cons_append,
        hPlace, Reply.finish]
  | rejectEnd =>
      simp only [Parser.rejectEnd, Cursor.unterminated, Cursor.stop_behind hBase]
      rfl
  | @bind _ _ first second cursor _ _ ihFirst ihSecond =>
      rw [run_bind, run_bind, ihFirst hBase]
      cases hFirst : first.run cursor with
      | error fault after => rfl
      | ok value after =>
          exact ihSecond value after hFirst ((onward_of_ok hFirst).base_eq.trans hBase)
  | @advance cursor =>
      rcases cursor with ⟨start, seen, _ | ⟨token, rest⟩, depth, limit⟩ <;> rfl
  | @takeIf cursor accepts =>
      rcases cursor with ⟨start, seen, _ | ⟨token, rest⟩, depth, limit⟩
      · rfl
      · simp only [Parser.takeIf, Cursor.behind]
        split <;> rfl
  | @takeComments cursor =>
      simp only [Parser.takeComments, Cursor.behind, Reply.finish, List.append_assoc]
  | @enter cursor =>
      simp only [Parser.enter, Cursor.enter, Cursor.behind]
      by_cases hOpen : cursor.depth < cursor.limit
      · simp only [if_pos hOpen]
        rfl
      · simp only [if_neg hOpen]
        rfl
  | @inside _ body cursor context _ _ =>
      -- the inside of a block starts a list of its own, so it is read at the same cursor
      have hSame : ∀ block, blockCursor (cursor.behind base before) block =
          blockCursor cursor block := by
        intro block
        rw [blockCursor, Cursor.index_behind hBase]
        rfl
      have hAfter : ∀ block later, blockEnd (cursor.behind base before) block later =
          (blockEnd cursor block later).behind base before := by
        intro block later
        simp [blockEnd, Cursor.behind]
      have hRest : (cursor.behind base before).rest = cursor.rest := rfl
      have hDepth : (cursor.behind base before).depth = cursor.depth := rfl
      have hLimit : (cursor.behind base before).limit = cursor.limit := rfl
      rw [run_inside_eq, run_inside_eq, hRest, hDepth, hLimit]
      cases Cursor.splitBlock? 0 cursor.rest with
      | none =>
          simp only [Cursor.unterminated, Cursor.stop_behind hBase]
          rfl
      | some parts =>
          simp only [hSame, hAfter]
          split
          · cases body.run (blockCursor cursor parts.1) <;> rfl
          · rfl

/-- From two places with the same index and the same tokens ahead, at the same level, a parser
answers the same, in its errors too, if it goes by primitive steps from there. -/
theorem agrees_of_index_eq {parser : Parser α} (hTraced : ∀ cursor, parser.Traced cursor)
    {first second : Cursor} (hAlike : first.Alike second) (hIndex : first.index = second.index) :
    (parser.run first).Agrees (parser.run second) := by
  have hBehind : ∀ cursor : Cursor, cursor =
      (Cursor.mk cursor.index [] cursor.rest cursor.depth cursor.limit).behind cursor.base
        cursor.seen := fun _ => rfl
  have hStart : Cursor.mk second.index [] second.rest second.depth second.limit =
      Cursor.mk first.index [] first.rest first.depth first.limit := by
    rw [hIndex, hAlike.rest_eq, hAlike.depth_eq, hAlike.limit_eq]
  rw [hBehind first, hBehind second, hStart, (hTraced _).run_behind rfl,
    (hTraced _).run_behind (by exact hIndex)]
  cases parser.run ⟨first.index, [], first.rest, first.depth, first.limit⟩ with
  | ok value after => exact ⟨rfl, rfl, rfl, rfl⟩
  | error fault after => rfl

end Parser
end ProtoIdl
