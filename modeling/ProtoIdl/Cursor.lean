import ProtoIdl.Error

/-!
# Cursors

A cursor is a position in a list of tokens.  The tokens passed are kept beside
those ahead, the latest first, so that moving on is one step and an error can name
the token passed last.  A cursor over the inside of a block counts its positions
from the block's place in the whole stream.

Parsers only ever move on: `Cursor.Onward` relates a cursor to those that lie
further on in the same tokens, and `Cursor.Onward.left_le` turns this into a bound
for recursion.
-/

namespace ProtoIdl

/-- A position in a list of tokens, with the nesting reached so far. -/
structure Cursor where
  /-- The index of the first of these tokens in the whole stream. -/
  base : Nat
  /-- The tokens passed, the latest first. -/
  seen : List Token
  /-- The tokens ahead. -/
  rest : List Token
  /-- The number of levels entered and not left. -/
  depth : Nat
  /-- The number of levels that may be entered. -/
  limit : Nat
  deriving DecidableEq, Repr

namespace Cursor

/-- The number of levels that may be entered when none is configured. -/
def defaultLimit : Nat :=
  64

/-- The start of a token list. -/
def ofTokens (tokens : List Token) (limit : Nat) : Cursor :=
  ⟨0, [], tokens, 0, limit⟩

/-- The number of tokens ahead. -/
def left (cursor : Cursor) : Nat :=
  cursor.rest.length

/-- The index of the next token in the whole stream. -/
def index (cursor : Cursor) : Nat :=
  cursor.base + cursor.seen.length

/-- The index just past the tokens of this cursor in the whole stream. -/
def stop (cursor : Cursor) : Nat :=
  cursor.index + cursor.left

/-- The token `n` places ahead. -/
def peekNth? (cursor : Cursor) (n : Nat) : Option Token :=
  cursor.rest[n]?

/-- The next token. -/
def peek? (cursor : Cursor) : Option Token :=
  cursor.peekNth? 0

/-- Whether no token is ahead. -/
def isDone (cursor : Cursor) : Bool :=
  cursor.rest.isEmpty

/-! ## Errors at a position -/

/-- The token `n` places ahead does not fit. -/
def unexpectedNth (cursor : Cursor) (n : Nat) (context : String) : ParseError :=
  .unexpectedToken ((cursor.peekNth? n).getD "") context (cursor.index + n)

/-- The token passed last does not fit. -/
def unexpectedLast (cursor : Cursor) (context : String) : ParseError :=
  match cursor.seen with
  | [] => cursor.unexpectedNth 0 context
  | token :: before => .unexpectedToken token context (cursor.base + before.length)

/-- The tokens end before `expected`. -/
def unterminated (cursor : Cursor) (expected context : String) : ParseError :=
  .unterminated expected context cursor.stop

/-! ## Levels -/

/-- The same position one level down; the limit may forbid it. -/
def enter (cursor : Cursor) : Except ParseError Cursor :=
  if cursor.depth < cursor.limit then .ok { cursor with depth := cursor.depth + 1 }
  else .error (.tooDeep cursor.limit)

/-- The same position one level up. -/
def leave (cursor : Cursor) : Cursor :=
  { cursor with depth := cursor.depth - 1 }

/-! ## Blocks -/

/-- Split the tokens after an opening brace at the brace that closes it.  The first
argument counts the inner blocks that are open. -/
def splitBlock? : Nat → List Token → Option (List Token × List Token)
  | _, [] => none
  | inner, token :: rest =>
      if token = Token.closeBrace then
        match inner with
        | 0 => some ([], rest)
        | inner + 1 =>
            (splitBlock? inner rest).map fun parts => (token :: parts.1, parts.2)
      else
        (splitBlock? (if token = Token.openBrace then inner + 1 else inner) rest).map
          fun parts => (token :: parts.1, parts.2)

/-- A block, its closing brace and what follows are the whole list. -/
theorem append_of_splitBlock? {inner : Nat} {tokens block after : List Token}
    (hSplit : splitBlock? inner tokens = some (block, after)) :
    tokens = block ++ Token.closeBrace :: after := by
  fun_induction splitBlock? inner tokens generalizing block with
  | case1 => cases hSplit
  | case2 rest =>
      -- the closing brace of the block itself
      cases hSplit
      rfl
  | case3 rest inner ih =>
      -- the closing brace of an inner block
      obtain ⟨parts, hParts, hPair⟩ := Option.map_eq_some_iff.mp hSplit
      cases hPair
      simpa using ih hParts
  | case4 inner token rest _ ih =>
      -- any other token
      obtain ⟨parts, hParts, hPair⟩ := Option.map_eq_some_iff.mp hSplit
      cases hPair
      simpa using ih hParts

/-! ## Moving on -/

/-- The second cursor lies in the same tokens as the first, at the same place or
further on. -/
structure Onward (earlier later : Cursor) : Prop where
  base_eq : later.base = earlier.base
  limit_eq : later.limit = earlier.limit
  passed : ∃ used, earlier.rest = used ++ later.rest ∧
    later.seen = used.reverse ++ earlier.seen

namespace Onward

/-- Staying is moving on. -/
theorem refl (cursor : Cursor) : cursor.Onward cursor :=
  ⟨rfl, rfl, [], rfl, rfl⟩

/-- A change of level alone is moving on. -/
theorem of_depth (cursor : Cursor) (depth : Nat) :
    cursor.Onward { cursor with depth := depth } :=
  ⟨rfl, rfl, [], rfl, rfl⟩

/-- Moves can be joined. -/
theorem trans {first second third : Cursor}
    (hFirst : first.Onward second) (hSecond : second.Onward third) :
    first.Onward third := by
  obtain ⟨hBase, hLimit, used, hRest, hSeen⟩ := hFirst
  obtain ⟨hBase', hLimit', used', hRest', hSeen'⟩ := hSecond
  refine ⟨hBase'.trans hBase, hLimit'.trans hLimit, used ++ used', ?_, ?_⟩
  · rw [hRest, hRest', List.append_assoc]
  · rw [hSeen', hSeen, List.reverse_append, List.append_assoc]

/-- Moving on leaves no more tokens ahead than before. -/
theorem left_le {earlier later : Cursor} (hOnward : earlier.Onward later) :
    later.left ≤ earlier.left := by
  obtain ⟨_, _, used, hRest, _⟩ := hOnward
  simp [left, hRest]

/-- The end of the tokens stays where it is. -/
theorem stop_eq {earlier later : Cursor} (hOnward : earlier.Onward later) :
    later.stop = earlier.stop := by
  obtain ⟨hBase, _, used, hRest, hSeen⟩ := hOnward
  simp only [stop, index, left, hBase, hRest, hSeen, List.length_append, List.length_reverse]
  omega

end Onward

/-- Entering a level is moving on, although it stays at the same token. -/
theorem onward_of_enter {cursor inside : Cursor} (hEnter : cursor.enter = .ok inside) :
    cursor.Onward inside := by
  rw [enter] at hEnter
  split at hEnter
  · cases hEnter
    exact .of_depth cursor _
  · cases hEnter

/-- Leaving a level is moving on, although it stays at the same token. -/
theorem onward_leave (cursor : Cursor) : cursor.Onward cursor.leave :=
  .of_depth cursor _

end Cursor
end ProtoIdl
