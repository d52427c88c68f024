import ProtoIdl.Proofs.Parser.Running
import ProtoIdl.Proofs.Trace.Steps

/-!
# Runs at other places

Where a cursor stands in the stream only shows in errors, and the levels that are open to it
only in whether one more can be entered.  So from a cursor with the same tokens ahead and at
least as many open levels, a run that goes by primitive steps answers the same value, and stops
at a cursor that is so related again.

Two cursors are alike if the same tokens are ahead of them and the same levels are open.  From
alike cursors a run stops at alike cursors.
-/

namespace ProtoIdl

namespace Cursor

/-- The same tokens are ahead, no fewer levels have been entered, and no fewer may still be. -/
structure Roomier (first second : Cursor) : Prop where
  rest_eq : second.rest = first.rest
  depth_le : first.depth ≤ second.depth
  open_le : second.depth + first.limit ≤ second.limit + first.depth

/-- The same tokens are ahead at the same level. -/
structure Alike (first second : Cursor) : Prop where
  rest_eq : second.rest = first.rest
  depth_eq : second.depth = first.depth
  limit_eq : second.limit = first.limit

theorem Alike.roomier {first second : Cursor} (hAlike : first.Alike second) :
    first.Roomier second := by
  obtain ⟨hRest, hDepth, hLimit⟩ := hAlike
  exact ⟨hRest, by omega, by omega⟩

/-- Under one limit, a cursor with as many open levels is at the same level. -/
theorem Roomier.alike {first second : Cursor} (hRoomier : first.Roomier second)
    (hLimit : second.limit = first.limit) : first.Alike second := by
  obtain ⟨hRest, hDepth, hOpen⟩ := hRoomier
  exact ⟨hRest, by omega, hLimit⟩

end Cursor

namespace Parser

/-! ## More room -/

/-- What answers from the first cursor answers the same from the second, and stops at a place
with as much room. -/
def AnswersWithin (parser : Parser α) (cursor other : Cursor) : Prop :=
  ∀ value after, parser.run cursor = .ok value after →
    ∃ last, parser.run other = .ok value last ∧ after.Roomier last

theorem answersWithin_inside {cursor other : Cursor} (hRoomier : cursor.Roomier other)
    {body : Parser α} {context : String}
    (hBody : ∀ taken after entered, (takeBlock context).run cursor = .ok taken after →
      taken.enter = .ok entered → ∀ {other : Cursor}, entered.Roomier other →
        AnswersWithin body entered other) :
    AnswersWithin (inside context body) cursor other := by
  obtain ⟨hRest, hDepth, hOpenLe⟩ := hRoomier
  intro value after hRun
  obtain ⟨block, later, _, hSplit, hOpen, hInner, rfl⟩ := exists_of_run_inside hRun
  have hTaken : (takeBlock context).run cursor =
      .ok ⟨cursor.index, [], block, cursor.depth, cursor.limit⟩ (blockEnd cursor block later) := by
    simp only [takeBlock, hSplit]
    rfl
  have hEnter : Cursor.enter ⟨cursor.index, [], block, cursor.depth, cursor.limit⟩ =
      .ok (blockCursor cursor block) := by
    simp only [Cursor.enter, if_pos hOpen]
    rfl
  have hEntered : (blockCursor cursor block).Roomier (blockCursor other block) :=
    ⟨rfl, by simp [blockCursor, hDepth], by simp only [blockCursor]; omega⟩
  obtain ⟨last, hOther, _⟩ := hBody _ _ _ hTaken hEnter hEntered value _ hInner
  have hSplitOther : Cursor.splitBlock? 0 other.rest = some (block, later) := by
    rw [hRest]
    exact hSplit
  have hOpenOther : other.depth < other.limit := by omega
  refine ⟨blockEnd other block later, ?_, rfl, hDepth, hOpenLe⟩
  rw [run_inside context body hSplitOther hOpenOther, hOther]

/-- A run that goes by primitive steps does not depend on where in the stream it starts, nor on
levels that it does not need. -/
theorem Traced.answersWithin {parser : Parser α} {cursor : Cursor}
    (hTraced : parser.Traced cursor) {other : Cursor} (hRoomier : cursor.Roomier other) :
    AnswersWithin parser cursor other := by
  induction hTraced generalizing other with
  | pure value =>
      intro answer after hRun
      cases hRun
      exact ⟨other, rfl, hRoomier⟩
  | fail | rejectNth | rejectLast | rejectEnd => exact fun _ _ hRun => nomatch hRun
  | @bind _ _ first second cursor _ _ ihFirst ihSecond =>
      intro value after hRun
      obtain ⟨inner, between, hInner, hOuter⟩ := run_bind_eq_ok_iff.mp hRun
      obtain ⟨middle, hFirst, hMiddle⟩ := ihFirst hRoomier inner between hInner
      obtain ⟨last, hSecond, hLast⟩ := ihSecond inner between hInner hMiddle value after hOuter
      exact ⟨last, run_bind_eq_ok_iff.mpr ⟨inner, middle, hFirst, hSecond⟩, hLast⟩
  | @peekNth cursor n =>
      intro value after hRun
      cases hRun
      refine ⟨other, ?_, hRoomier⟩
      simp only [Parser.peekNth, Cursor.peekNth?, hRoomier.rest_eq]
  | @advance cursor =>
      obtain ⟨hRest, hDepth, hOpen⟩ := hRoomier
      intro value after hRun
      simp only [Parser.advance, hRest] at hRun ⊢
      split at hRun
      · cases hRun
        exact ⟨other, rfl, hRest, hDepth, hOpen⟩
      · cases hRun
        exact ⟨_, rfl, rfl, hDepth, hOpen⟩
  | @takeIf cursor accepts =>
      obtain ⟨hRest, hDepth, hOpen⟩ := hRoomier
      intro value after hRun
      simp only [Parser.takeIf, hRest] at hRun ⊢
      split at hRun
      · cases hRun
        exact ⟨other, rfl, hRest, hDepth, hOpen⟩
      · split at hRun
        · next hAccepts =>
            cases hRun
            rw [if_pos hAccepts]
            exact ⟨_, rfl, rfl, hDepth, hOpen⟩
        · next hRefuses =>
            cases hRun
            rw [if_neg hRefuses]
            exact ⟨other, rfl, hRest, hDepth, hOpen⟩
  | @takeComments cursor =>
      obtain ⟨hRest, hDepth, hOpen⟩ := hRoomier
      intro value after hRun
      cases hRun
      simp only [Parser.takeComments, hRest]
      exact ⟨_, rfl, rfl, hDepth, hOpen⟩
  | @enter cursor =>
      obtain ⟨hRest, hDepth, hOpenLe⟩ := hRoomier
      intro value after hRun
      -- the roomier cursor has a level left where the other one has
      simp only [run_enter_eq] at hRun ⊢
      split at hRun
      · next hOpen =>
          cases hRun
          rw [if_pos (by omega)]
          refine ⟨entered other, rfl, hRest, Nat.succ_le_succ hDepth, ?_⟩
          simp only [entered]
          omega
      · cases hRun
  | @leave cursor =>
      obtain ⟨hRest, hDepth, hOpen⟩ := hRoomier
      intro value after hRun
      cases hRun
      refine ⟨other.leave, rfl, hRest, Nat.sub_le_sub_right hDepth 1, ?_⟩
      simp only [Cursor.leave]
      omega
  | inside _ ihBody => exact answersWithin_inside hRoomier ihBody

/-! ## The same level -/

/-- What answers from the first cursor answers the same from the second, and stops at alike
places. -/
def AnswersAlike (parser : Parser α) (cursor other : Cursor) : Prop :=
  ∀ value after, parser.run cursor = .ok value after →
    ∃ last, parser.run other = .ok value last ∧ after.Alike last

/-- A run that goes by primitive steps does not depend on where in the stream it starts. -/
theorem Traced.answersAlike {parser : Parser α} {cursor : Cursor}
    (hTraced : parser.Traced cursor) {other : Cursor} (hAlike : cursor.Alike other) :
    AnswersAlike parser cursor other := by
  intro value after hRun
  obtain ⟨last, hOther, hRoomier⟩ := hTraced.answersWithin hAlike.roomier value after hRun
  have hLimit := (onward_of_ok hRun).limit_eq
  have hLimitOther := (onward_of_ok hOther).limit_eq
  refine ⟨last, hOther, hRoomier.alike ?_⟩
  rw [hLimitOther, hLimit, hAlike.limit_eq]

end Parser
end ProtoIdl
