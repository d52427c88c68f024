import ProtoIdl.Grammar.Message

/-!
# The members of a message as a loop

The parser of the members of a message calls itself on nested blocks, and apart from that
it is a loop over statements.  `members_eq_loop` says so, and what is known of loops then
holds of it; a statement with a nested block has fewer tokens ahead than the loop.
-/

namespace ProtoIdl
namespace Grammar

open ProtoIdl.Parser

/-- The keyword of a kind of block. -/
def BlockKind.keyword : BlockKind → Keyword
  | message => .message
  | extend => .extend

/-- A token announces a block by the keyword of that. -/
theorem BlockKind.keyword_of_ofToken? {token : Token} {kind : BlockKind}
    (hRead : ofToken? token = some kind) : Keyword.ofToken? token = some kind.keyword := by
  unfold ofToken? at hRead
  split at hRead
  · next hKeyword => cases hRead; exact hKeyword
  · next hKeyword => cases hRead; exact hKeyword
  · cases hRead

/-- Read one member of a message, of which the comments and the first token have been
taken, and add it to the message. -/
def messageStatement (message : Message) (head : List String × Token) : Parser Message :=
  match BlockKind.ofToken? head.2 with
  | none => messageMember message head
  | some kind => do
      let named ← block kind fun name => members (.new name)
      return addBlock message kind head.1 named.1 named.2

/-- The members of a message are read by a loop. -/
theorem members_eq_loop (message : Message) :
    members message = loop statementHead messageStatement message := by
  ext cursor
  induction hLeft : cursor.left using Nat.strongRecOn generalizing message cursor with
  | ind left ih =>
      rw [members_eq, loop_eq, run_bind, run_bind]
      cases hHead : statementHead.run cursor with
      | error fault after => rfl
      | ok found between =>
          cases found with
          | none => rfl
          | some head =>
              -- the head has taken a token, so the induction covers what is left
              have hLess := statementHead.progress cursor _ between hHead rfl
              have hLater : ∀ grown after, after.left ≤ between.left →
                  (members grown).run after =
                    (loop statementHead messageStatement grown).run after := by
                intro grown after hLe
                exact ih after.left (by omega) grown after rfl
              simp only [messageStatement]
              cases hKind : BlockKind.ofToken? head.2 with
              | none =>
                  simp only [run_bind]
                  cases hMember : (messageMember message head).run between with
                  | error fault after => rfl
                  | ok grown after => exact hLater grown after (onward_of_ok hMember).left_le
              | some kind =>
                  simp only [bind_assoc, pure_bind, run_bind]
                  cases hBlock : (block kind fun name => members (.new name)).run between with
                  | error fault after => rfl
                  | ok named after => exact hLater _ after (onward_of_ok hBlock).left_le

/-- At the end of the tokens a loop over statements has nothing to read. -/
theorem run_statementLoop_nil {item : σ → List String × Token → Parser σ} {state : σ}
    {cursor : Cursor} (hRest : cursor.rest = []) :
    (loop statementHead item state).run cursor = .ok state cursor := by
  rcases cursor with ⟨base, seen, rest, depth, limit⟩
  cases hRest
  rw [loop_eq]
  rfl

/-- A loop over statements ends at the end of the tokens. -/
theorem rest_of_run_statementLoop {item : σ → List String × Token → Parser σ} {state final : σ}
    {cursor last : Cursor} (hRun : (loop statementHead item state).run cursor = .ok final last) :
    last.rest = [] := by
  induction hLeft : cursor.left using Nat.strongRecOn generalizing state cursor with
  | ind left ih =>
      rw [loop_eq] at hRun
      obtain ⟨found, between, hHead, hRound⟩ := run_bind_eq_ok_iff.mp hRun
      cases found with
      | none =>
          -- the head finds nothing only where there is no token to take
          cases hRound
          obtain ⟨comments, start, _, hAdvance⟩ := run_bind_eq_ok_iff.mp hHead
          obtain ⟨token, stop, hToken, hMap⟩ := run_bind_eq_ok_iff.mp hAdvance
          cases hRest : start.rest with
          | nil =>
              simp only [advance, hRest] at hToken
              cases hToken
              cases hMap
              exact hRest
          | cons first rest =>
              simp only [advance, hRest] at hToken
              cases hToken
              cases hMap
      | some head =>
          have hLess := statementHead.progress cursor _ between hHead rfl
          obtain ⟨grown, next, hItem, hLater⟩ := run_bind_eq_ok_iff.mp hRound
          have hNext := (onward_of_ok hItem).left_le
          exact ih next.left (by omega) hLater rfl

/-- The members of a message are read up to the end of the tokens. -/
theorem rest_of_run_members {message final : Message} {cursor last : Cursor}
    (hRun : (members message).run cursor = .ok final last) : last.rest = [] := by
  rw [members_eq_loop] at hRun
  exact rest_of_run_statementLoop hRun

end Grammar
end ProtoIdl
