import ProtoIdl.Parser.Basic
import ProtoIdl.Text.Numeral

/-!
# Primitive parsers

The steps from which the grammar is composed: looking ahead, taking one token or a
run of comments, reading a numeral, and isolating a block.
-/

namespace ProtoIdl
namespace Parser

/-! ## Looking ahead -/

/-- The token `n` places ahead. -/
def peekNth (n : Nat) : Parser (Option Token) where
  run cursor := .ok (cursor.peekNth? n) cursor
  onward cursor := .refl cursor

/-- The next token. -/
def peek : Parser (Option Token) :=
  peekNth 0

/-- Reject the token `n` places ahead. -/
def rejectNth (n : Nat) (context : String) : Parser α where
  run cursor := .error (cursor.unexpectedNth n context) cursor
  onward cursor := .refl cursor

/-- Reject the token passed last. -/
def rejectLast (context : String) : Parser α where
  run cursor := .error (cursor.unexpectedLast context) cursor
  onward cursor := .refl cursor

/-- Report that the tokens end before `expected`. -/
def rejectEnd (expected context : String) : Parser α where
  run cursor := .error (cursor.unterminated expected context) cursor
  onward cursor := .refl cursor

/-! ## Taking tokens -/

/-- Passing the next token is moving on. -/
theorem onward_pass {cursor : Cursor} {token : Token} {rest : List Token}
    (hRest : cursor.rest = token :: rest) :
    cursor.Onward { cursor with seen := token :: cursor.seen, rest := rest } :=
  ⟨rfl, rfl, [token], hRest, rfl⟩

/-- Take the next token, whatever it is. -/
def advance : Parser (Option Token) where
  run cursor :=
    match cursor.rest with
    | [] => .ok none cursor
    | token :: rest =>
        .ok (some token) { cursor with seen := token :: cursor.seen, rest := rest }
  onward cursor := by
    split
    · exact .refl cursor
    · next hRest => exact onward_pass hRest

/-- Take the next token if it is in a class. -/
def takeIf (accepts : Token → Bool) : Parser (Option Token) where
  run cursor :=
    match cursor.rest with
    | [] => .ok none cursor
    | token :: rest =>
        if accepts token then
          .ok (some token) { cursor with seen := token :: cursor.seen, rest := rest }
        else .ok none cursor
  onward cursor := by
    split
    · exact .refl cursor
    · next hRest =>
        split
        · exact onward_pass hRest
        · exact .refl cursor

/-- Take the next token if it is `token`, and say whether it was. -/
def eat (token : Token) : Parser Bool := do
  let taken ← takeIf fun next => next == token
  return taken.isSome

/-- Take the next token; the tokens must not end here. -/
def next (expected context : String) : Parser Token := do
  match ← advance with
  | some token => return token
  | none => rejectEnd expected context

/-- Take the next token, which must be `token`. -/
def expect (token : Token) (context : String) : Parser Unit := do
  let found ← next token context
  if found = token then return ()
  else rejectLast context

/-- Check that the token passed last, which is `token`, can be a name. -/
def checkWord (token : Token) (context : String) : Parser Token :=
  if token.isWordLike then pure token
  else rejectLast context

/-- Take the next token, which must be able to be a name. -/
def word (expected context : String) : Parser Token := do
  let found ← next expected context
  checkWord found context

/-- Take a run of comments and answer their bodies. -/
def takeComments : Parser (List String) where
  run cursor :=
    let run := cursor.rest.takeWhile Token.isComment
    .ok (run.map Token.commentBody)
      { cursor with
        seen := run.reverse ++ cursor.seen
        rest := cursor.rest.dropWhile Token.isComment }
  onward cursor :=
    ⟨rfl, rfl, cursor.rest.takeWhile Token.isComment,
      List.takeWhile_append_dropWhile.symm, rfl⟩

/-- Read a numeral of the interval of its slot. -/
def numeral (interval : Numeral.Interval) (literal : Token) (context : String) : Parser Int :=
  match Numeral.within? interval literal with
  | some value => pure value
  | none => fail (.invalidNumber literal context)

/-! ## Levels and blocks -/

/-- Go one level down; the limit may forbid it. -/
def enter : Parser Unit where
  run cursor :=
    match cursor.enter with
    | .ok inside => .ok () inside
    | .error fault => .error fault cursor
  onward cursor := by
    split
    · next inside hEnter => exact Cursor.onward_of_enter hEnter
    · exact .refl cursor

/-- Go one level up. -/
def leave : Parser Unit where
  run cursor := .ok () cursor.leave
  onward := Cursor.onward_leave

/-- Take the block whose opening brace was passed last, with its closing brace, and
answer a cursor over its inside. -/
def takeBlock (context : String) : Parser Cursor where
  run cursor :=
    match Cursor.splitBlock? 0 cursor.rest with
    | some (block, after) =>
        .ok ⟨cursor.index, [], block, cursor.depth, cursor.limit⟩
          { cursor with
            seen := Token.closeBrace :: (block.reverse ++ cursor.seen)
            rest := after }
    | none => .error (cursor.unterminated Token.closeBrace context) cursor
  onward cursor := by
    split
    · next block after hSplit =>
        refine ⟨rfl, rfl, block ++ [Token.closeBrace], ?_, ?_⟩
        · simpa using Cursor.append_of_splitBlock? hSplit
        · simp
    · exact .refl cursor

/-- Take a block and read its inside, one level down.  What is read there does not reach
past the end of the block. -/
def inside (context : String) (body : Parser α) : Parser α where
  run cursor :=
    match (takeBlock context).run cursor with
    | .error fault after => .error fault after
    | .ok block after =>
        match block.enter with
        | .error fault => .error fault after
        | .ok entered =>
            match body.run entered with
            | .error fault _ => .error fault after
            | .ok value _ => .ok value after
  onward cursor := by
    have hTaken := (takeBlock context).onward cursor
    split
    · next hRun => rwa [hRun] at hTaken
    · next hRun =>
        rw [hRun] at hTaken
        split
        · exact hTaken
        · split <;> exact hTaken

/-- The inside of a block is shorter than what was ahead of it. -/
theorem left_lt_of_takeBlock {context : String} {cursor block after : Cursor}
    (hRun : (takeBlock context).run cursor = .ok block after) : block.left < cursor.left := by
  simp only [takeBlock] at hRun
  split at hRun
  · next inside rest hSplit =>
      cases hRun
      simp [Cursor.left, Cursor.append_of_splitBlock? hSplit]
  · cases hRun

/-- Going one level down in a block leaves it as long as it is. -/
theorem left_le_of_enter {block entered cursor after : Cursor}
    (hRun : (ofExcept block.enter).run cursor = .ok entered after) : entered.left ≤ block.left := by
  cases hLevel : block.enter with
  | error fault => simp [hLevel, ofExcept] at hRun
  | ok below =>
      rw [hLevel] at hRun
      cases hRun
      exact (Cursor.onward_of_enter hLevel).left_le

/-! ## Progress -/

/-- Taking any token takes one, except at the end. -/
theorem advance_consumes : advance.Consumes fun token => token.isSome := by
  intro cursor token after hRun hSome
  simp only [advance] at hRun
  split at hRun
  · cases hRun
    cases hSome
  · next hRest =>
      cases hRun
      simp [Cursor.left, hRest]

/-- Taking a token that must be there takes one. -/
theorem next_consumes (expected context : String) :
    (next expected context).Consumes fun _ => True := by
  intro cursor token after hRun _
  obtain ⟨found, between, hFound, hRest⟩ := run_bind_eq_ok_iff.mp hRun
  cases found with
  | none => cases hRest
  | some found =>
      cases hRest
      exact advance_consumes cursor _ _ hFound rfl

end Parser
end ProtoIdl
