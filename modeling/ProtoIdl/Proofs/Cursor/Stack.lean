import ProtoIdl.Proofs.Cursor.Balanced
import ProtoIdl.Proofs.Depth.Gauge
import ProtoIdl.Proofs.Trace.Position

/-!
# Cursors over blocks in blocks

A parser works with one cursor at a time: a block that it takes is read through a cursor of
its own, and when that is dropped the cursor around it goes on just past the block.
`CursorStack` keeps the cursors that are in use, and `CursorStack.run` performs any operations
on them, in any order, whether they succeed or fail.

Every cursor in use is over a stretch of the stream that starts at its base, and one over a
block has balanced braces there.  So, wherever it has moved on to, the search for the end of a
block that it has just seen opened stays inside: only the outermost cursor can find that no
closing brace is left.
-/

namespace ProtoIdl

/-! ## Operations -/

/-- An operation that stays on its cursor. -/
inductive CursorCall where
  | enter
  | leave
  | advance
  | eat (token : Token)
  | next (expected context : String)
  | expect (token : Token) (context : String)
  | word (expected context : String)
  | takeComments

namespace CursorCall

/-- The cursor after an operation, whether it succeeded or failed. -/
def after : CursorCall → Cursor → Cursor
  | enter, cursor => (Parser.enter.run cursor).cursor
  | leave, cursor => (Parser.leave.run cursor).cursor
  | advance, cursor => (Parser.advance.run cursor).cursor
  | eat token, cursor => ((Parser.eat token).run cursor).cursor
  | next expected context, cursor => ((Parser.next expected context).run cursor).cursor
  | expect token context, cursor => ((Parser.expect token context).run cursor).cursor
  | word expected context, cursor => ((Parser.word expected context).run cursor).cursor
  | takeComments, cursor => (Parser.takeComments.run cursor).cursor

theorem onward_after (call : CursorCall) (cursor : Cursor) :
    cursor.Onward (call.after cursor) := by
  cases call with
  | enter => exact Parser.enter.onward cursor
  | leave => exact Parser.leave.onward cursor
  | advance => exact Parser.advance.onward cursor
  | eat token => exact (Parser.eat token).onward cursor
  | next expected context => exact (Parser.next expected context).onward cursor
  | expect token context => exact (Parser.expect token context).onward cursor
  | word expected context => exact (Parser.word expected context).onward cursor
  | takeComments => exact Parser.takeComments.onward cursor

/-- Entering stays within the limit, and nothing else goes down. -/
theorem depth_after_le (call : CursorCall) {cursor : Cursor}
    (hDepth : cursor.depth ≤ cursor.limit) : (call.after cursor).depth ≤ cursor.limit := by
  have hSame {α : Type} {parser : Parser α} (hParser : parser.Levelless) :
      (parser.run cursor).cursor.depth ≤ cursor.limit := by
    rwa [hParser.depth_eq]
  cases call with
  | enter =>
      rw [after, Parser.run_enter_eq]
      split
      · next hOpen => exact hOpen
      · exact hDepth
  | leave =>
      change cursor.depth - 1 ≤ cursor.limit
      omega
  | advance => exact hSame .advance
  | eat token => exact hSame (.eat token)
  | next expected context => exact hSame (.next expected context)
  | expect token context => exact hSame (.expect token context)
  | word expected context => exact hSame (.word expected context)
  | takeComments => exact hSame .takeComments

end CursorCall

/-- The cursors in use: the outermost, and those over blocks, the innermost first. -/
structure CursorStack where
  outermost : Cursor
  blocks : List Cursor

/-- What can be done to a stack of cursors. -/
inductive CursorStep where
  /-- An operation of the current cursor that stays on it. -/
  | call (call : CursorCall)
  /-- Take a block, whose cursor becomes the current one. -/
  | takeBlock (context : String)
  /-- Drop the current cursor, unless it is the outermost. -/
  | drop

namespace CursorStack

/-- A single cursor at the start of the stream. -/
def ofTokens (stream : List Token) (limit : Nat) : CursorStack :=
  ⟨.ofTokens stream limit, []⟩

/-- The cursor that is read from. -/
def current (stack : CursorStack) : Cursor :=
  stack.blocks.headD stack.outermost

/-- Every cursor in use. -/
def cursors (stack : CursorStack) : List Cursor :=
  stack.blocks ++ [stack.outermost]

/-- Put a cursor in the place of the current one. -/
def setCurrent (stack : CursorStack) (cursor : Cursor) : CursorStack :=
  match stack.blocks with
  | [] => { stack with outermost := cursor }
  | _ :: around => { stack with blocks := cursor :: around }

/-- Go on with the cursor of a block. -/
def push (stack : CursorStack) (block : Cursor) : CursorStack :=
  { stack with blocks := block :: stack.blocks }

/-- Perform one step. -/
def step (stack : CursorStack) : CursorStep → CursorStack
  | .call call => stack.setCurrent (call.after stack.current)
  | .takeBlock context =>
      match (Parser.takeBlock context).run stack.current with
      | .ok block after => (stack.setCurrent after).push block
      | .error _ after => stack.setCurrent after
  | .drop => { stack with blocks := stack.blocks.tail }

/-- Perform steps in order. -/
def run (stack : CursorStack) (steps : List CursorStep) : CursorStack :=
  steps.foldl step stack

end CursorStack

/-! ## One cursor -/

namespace Cursor

/-- All tokens of a cursor, those passed and those ahead. -/
def tokens (cursor : Cursor) : List Token :=
  cursor.seen.reverse ++ cursor.rest

/-- The number of tokens passed. -/
def position (cursor : Cursor) : Nat :=
  cursor.seen.length

theorem tokens_eq_of_onward {earlier later : Cursor} (hOnward : earlier.Onward later) :
    later.tokens = earlier.tokens := by
  obtain ⟨-, -, used, hRest, hSeen⟩ := hOnward
  rw [tokens, tokens, hSeen, hRest]
  simp

/-- A cursor is over the slice of the stream that starts at its base, at a position in it and
at a level within the limit. -/
structure Faithful (cursor : Cursor) (stream : List Token) (limit : Nat) : Prop where
  slice : cursor.tokens = (stream.drop cursor.base).take cursor.tokens.length
  within : cursor.base + cursor.tokens.length ≤ stream.length
  position_le : cursor.position ≤ cursor.tokens.length
  limit_eq : cursor.limit = limit
  depth_le : cursor.depth ≤ limit

/-- A cursor that views the stream is over the slice that starts at its base. -/
theorem Views.faithful {cursor : Cursor} {stream : List Token} {limit : Nat}
    (hViews : cursor.Views stream) (hLimit : cursor.limit = limit) (hDepth : cursor.depth ≤ limit) :
    cursor.Faithful stream limit := by
  obtain ⟨before, after, hStream, hBefore, -⟩ := hViews
  change stream = before ++ cursor.tokens ++ after at hStream
  constructor
  · rw [hStream, ← hBefore, List.append_assoc, List.drop_left, List.take_left]
  · rw [hStream, ← hBefore, List.length_append, List.length_append]
    omega
  · simp [position, tokens]
  · exact hLimit
  · exact hDepth

/-- `block` is the cursor over the block that begins at `cursor`, and `after` is the cursor
that goes on behind it: the block is the shortest slice up to a closing brace before which as
many braces are closed as opened, and its braces match. -/
structure TakesBlock (cursor block after : Cursor) : Prop where
  ahead : cursor.rest = block.tokens ++ Token.closeBrace :: after.rest
  balanced : Balanced block.tokens
  shortest : ∀ other later, cursor.rest = other ++ Token.closeBrace :: later →
    other.count Token.closeBrace = other.count Token.openBrace →
      block.tokens.length ≤ other.length
  base_eq : block.base = cursor.base + cursor.position
  start : block.position = 0
  shared : block.depth = cursor.depth ∧ block.limit = cursor.limit
  tokens_eq : after.tokens = cursor.tokens
  past : after.position = cursor.position + block.tokens.length + 1
  kept : after.base = cursor.base ∧ after.depth = cursor.depth ∧ after.limit = cursor.limit

theorem takesBlock_of_run {context : String} {cursor block after : Cursor}
    (hRun : (Parser.takeBlock context).run cursor = .ok block after) :
    cursor.TakesBlock block after := by
  unfold Parser.takeBlock at hRun
  dsimp only at hRun
  split at hRun
  · next inside later hSplit =>
      obtain ⟨hRest, hBalanced⟩ := splitBlock?_eq_some_iff.mp hSplit
      cases hRun
      constructor
      · simpa [tokens] using hRest
      · simpa [tokens] using hBalanced
      · intro other behind hOther hCount
        have hLength := hBalanced.length_le (hOther.symm.trans hRest) hCount
        simpa [tokens] using hLength
      · rfl
      · rfl
      · exact ⟨rfl, rfl⟩
      · simp [tokens, hRest]
      · simp [position, tokens]
        omega
      · exact ⟨rfl, rfl, rfl⟩
  · cases hRun

/-- Where no block can be taken, the cursor stays, and no balanced slice ahead of it is
closed. -/
theorem of_run_takeBlock_error {context : String} {cursor after : Cursor} {fault : ParseError}
    (hRun : (Parser.takeBlock context).run cursor = .error fault after) :
    after = cursor ∧ fault = cursor.unterminated Token.closeBrace context ∧
      ∀ other later, cursor.rest = other ++ Token.closeBrace :: later → ¬Balanced other := by
  unfold Parser.takeBlock at hRun
  dsimp only at hRun
  split at hRun
  · cases hRun
  · next hSplit =>
      cases hRun
      exact ⟨rfl, rfl, splitBlock?_eq_none_iff.mp hSplit⟩

/-- Where the braces of a cursor match, a block that has just been opened can be taken. -/
theorem exists_takeBlock {cursor : Cursor} (hBalanced : Balanced cursor.tokens)
    (hOpened : cursor.seen.head? = some Token.openBrace) (context : String) :
    ∃ block after, (Parser.takeBlock context).run cursor = .ok block after := by
  obtain ⟨before, hSeen⟩ : ∃ before, cursor.seen = Token.openBrace :: before := by
    cases hSeen : cursor.seen with
    | nil => simp [hSeen] at hOpened
    | cons token before =>
        rw [hSeen, List.head?_cons, Option.some.injEq] at hOpened
        exact ⟨before, by rw [hOpened]⟩
  have hTokens : cursor.tokens = before.reverse ++ Token.openBrace :: cursor.rest := by
    simp [tokens, hSeen]
  rw [hTokens] at hBalanced
  obtain ⟨inside, later, hRest, hInside⟩ := hBalanced.exists_match
  have hSplit := splitBlock?_eq_some_iff.mpr ⟨hRest, hInside⟩
  simp only [Parser.takeBlock, hSplit]
  exact ⟨_, _, rfl⟩

end Cursor

/-! ## All cursors in use -/

namespace CursorStack

variable {stack : CursorStack} {stream : List Token} {limit : Nat}

/-- What every step keeps: each cursor views the stream and is within the limit, and those over
blocks have balanced braces. -/
structure Sound (stack : CursorStack) (stream : List Token) (limit : Nat) : Prop where
  views : ∀ cursor ∈ stack.cursors, cursor.Views stream
  within : ∀ cursor ∈ stack.cursors, cursor.limit = limit ∧ cursor.depth ≤ limit
  balanced : ∀ cursor ∈ stack.blocks, Balanced cursor.tokens
  whole : stack.outermost.stop = stream.length

theorem sound_ofTokens (stream : List Token) (limit : Nat) :
    (ofTokens stream limit).Sound stream limit := by
  constructor
  · intro cursor hMem
    rw [List.mem_singleton.mp hMem]
    exact Cursor.views_ofTokens stream limit
  · intro cursor hMem
    rw [List.mem_singleton.mp hMem]
    exact ⟨rfl, Nat.zero_le _⟩
  · intro cursor hMem
    cases hMem
  · simp [ofTokens, Cursor.ofTokens, Cursor.stop, Cursor.index, Cursor.left]

theorem current_mem_cursors (stack : CursorStack) : stack.current ∈ stack.cursors := by
  rcases stack with ⟨outermost, _ | ⟨block, around⟩⟩ <;> simp [current, cursors]

namespace Sound

/-- Moving the current cursor on, within the limit, keeps the stack sound. -/
theorem setCurrent (hSound : stack.Sound stream limit) {later : Cursor}
    (hOnward : stack.current.Onward later) (hDepth : later.depth ≤ limit) :
    (stack.setCurrent later).Sound stream limit := by
  have hMem := stack.current_mem_cursors
  have hViews := (hSound.views _ hMem).onward hOnward
  have hLimit : later.limit = limit := hOnward.limit_eq.trans (hSound.within _ hMem).1
  obtain ⟨hAll, hWithin, hBalanced, hWhole⟩ := hSound
  rcases stack with ⟨outermost, _ | ⟨block, around⟩⟩
  · constructor
    · simpa [CursorStack.setCurrent, cursors] using hViews
    · simpa [CursorStack.setCurrent, cursors] using ⟨hLimit, hDepth⟩
    · exact hBalanced
    · exact hOnward.stop_eq.trans hWhole
  · simp only [cursors, List.cons_append, List.forall_mem_cons] at hAll hWithin hBalanced
    constructor
    · simpa only [CursorStack.setCurrent, cursors, List.cons_append, List.forall_mem_cons] using
        ⟨hViews, hAll.2⟩
    · simpa only [CursorStack.setCurrent, cursors, List.cons_append, List.forall_mem_cons] using
        ⟨⟨hLimit, hDepth⟩, hWithin.2⟩
    · have hTokens : later.tokens = block.tokens := Cursor.tokens_eq_of_onward hOnward
      simpa only [CursorStack.setCurrent, List.forall_mem_cons, hTokens] using hBalanced
    · exact hWhole

theorem push (hSound : stack.Sound stream limit) {block : Cursor} (hViews : block.Views stream)
    (hWithin : block.limit = limit ∧ block.depth ≤ limit) (hBalanced : Balanced block.tokens) :
    (stack.push block).Sound stream limit := by
  obtain ⟨hAll, hAllWithin, hAllBalanced, hWhole⟩ := hSound
  constructor
  · simpa only [CursorStack.push, cursors, List.cons_append, List.forall_mem_cons] using
      ⟨hViews, hAll⟩
  · simpa only [CursorStack.push, cursors, List.cons_append, List.forall_mem_cons] using
      ⟨hWithin, hAllWithin⟩
  · simpa only [CursorStack.push, List.forall_mem_cons] using ⟨hBalanced, hAllBalanced⟩
  · exact hWhole

theorem drop (hSound : stack.Sound stream limit) :
    (stack.step .drop).Sound stream limit := by
  obtain ⟨hAll, hWithin, hBalanced, hWhole⟩ := hSound
  have hMem : ∀ cursor ∈ (stack.step .drop).cursors, cursor ∈ stack.cursors := by
    intro cursor hCursor
    rcases List.mem_append.mp hCursor with hBlock | hOutermost
    · exact List.mem_append_left _ (List.mem_of_mem_tail hBlock)
    · exact List.mem_append_right _ hOutermost
  constructor
  · exact fun cursor hCursor => hAll cursor (hMem cursor hCursor)
  · exact fun cursor hCursor => hWithin cursor (hMem cursor hCursor)
  · exact fun cursor hCursor => hBalanced cursor (List.mem_of_mem_tail hCursor)
  · exact hWhole

/-- Every step keeps the stack sound. -/
theorem step (hSound : stack.Sound stream limit) (step : CursorStep) :
    (stack.step step).Sound stream limit := by
  have hMem := stack.current_mem_cursors
  obtain ⟨hLimit, hDepth⟩ := hSound.within _ hMem
  cases step with
  | call call =>
      have hAfter := call.depth_after_le (hDepth.trans_eq hLimit.symm)
      exact hSound.setCurrent (call.onward_after _) (hAfter.trans_eq hLimit)
  | takeBlock context =>
      have hOnward := (Parser.takeBlock context).onward stack.current
      rw [CursorStack.step]
      cases hRun : (Parser.takeBlock context).run stack.current with
      | ok block after =>
          rw [hRun, Reply.cursor_ok] at hOnward
          have hTakes := Cursor.takesBlock_of_run hRun
          obtain ⟨hSharedDepth, hSharedLimit⟩ := hTakes.shared
          have hAfter : after.depth ≤ limit := hTakes.kept.2.1.trans_le hDepth
          have hBlock : block.limit = limit ∧ block.depth ≤ limit :=
            ⟨hSharedLimit.trans hLimit, hSharedDepth.trans_le hDepth⟩
          have hViews := (hSound.views _ hMem).block hRun
          exact (hSound.setCurrent hOnward hAfter).push hViews hBlock hTakes.balanced
      | error fault after =>
          rw [hRun, Reply.cursor_error] at hOnward
          obtain ⟨rfl, -⟩ := Cursor.of_run_takeBlock_error hRun
          exact hSound.setCurrent hOnward hDepth
  | drop => exact hSound.drop

end Sound

/-- So does every run. -/
theorem sound_run (hSound : stack.Sound stream limit) (steps : List CursorStep) :
    (stack.run steps).Sound stream limit := by
  induction steps generalizing stack with
  | nil => exact hSound
  | cons step rest ih => exact ih (hSound.step step)

/-- In a block, a block that has just been opened can be taken. -/
theorem Sound.exists_takeBlock (hSound : stack.Sound stream limit) (hInside : stack.blocks ≠ [])
    (hOpened : stack.current.seen.head? = some Token.openBrace) (context : String) :
    ∃ block after, (Parser.takeBlock context).run stack.current = .ok block after := by
  obtain ⟨block, around, hBlocks⟩ := List.exists_cons_of_ne_nil hInside
  have hCurrent : stack.current = block := by simp [current, hBlocks]
  have hBalanced := hSound.balanced block (by simp [hBlocks])
  rw [← hCurrent] at hBalanced
  exact Cursor.exists_takeBlock hBalanced hOpened context

/-- Whatever is done with a cursor over a stream and the blocks taken through it, every cursor
in use is over the slice of the stream that starts at its base.  A block that can be taken is
the shortest balanced slice up to its closing brace, and the cursor that it is taken from goes
on behind that brace; one that cannot be taken changes nothing.  In a block, a block that has
just been opened can always be taken, so that only the outermost cursor can miss its brace, at
the end of the stream. -/
theorem faithful_run (stream : List Token) (limit : Nat) (steps : List CursorStep) :
    let stack := (ofTokens stream limit).run steps
    (∀ cursor ∈ stack.cursors, cursor.Faithful stream limit) ∧
      (∀ context block after, (Parser.takeBlock context).run stack.current = .ok block after →
        stack.current.TakesBlock block after) ∧
      (∀ context fault after, (Parser.takeBlock context).run stack.current = .error fault after →
        after = stack.current ∧
          ∀ other later, stack.current.rest = other ++ Token.closeBrace :: later →
            ¬Balanced other) ∧
      (stack.current.seen.head? = some Token.openBrace → ∀ context,
        (stack.blocks ≠ [] →
          ∃ block after, (Parser.takeBlock context).run stack.current = .ok block after) ∧
        ∀ fault after, (Parser.takeBlock context).run stack.current = .error fault after →
          stack.blocks = [] ∧
            fault = .unterminated Token.closeBrace context stream.length) := by
  intro stack
  have hSound : stack.Sound stream limit := sound_run (sound_ofTokens stream limit) steps
  refine ⟨?_, ?_, ?_, ?_⟩
  · intro cursor hMem
    obtain ⟨hLimit, hDepth⟩ := hSound.within cursor hMem
    exact (hSound.views cursor hMem).faithful hLimit hDepth
  · intro context block after hRun
    exact Cursor.takesBlock_of_run hRun
  · intro context fault after hRun
    obtain ⟨hAfter, -, hNone⟩ := Cursor.of_run_takeBlock_error hRun
    exact ⟨hAfter, hNone⟩
  · intro hOpened context
    constructor
    · intro hInside
      exact hSound.exists_takeBlock hInside hOpened context
    · intro fault after hRun
      -- a block in use ends with the braces that it has opened
      have hOutermost : stack.blocks = [] := by
        by_contra hInside
        obtain ⟨block, behind, hTaken⟩ := hSound.exists_takeBlock hInside hOpened context
        rw [hRun] at hTaken
        cases hTaken
      have hCurrent : stack.current = stack.outermost := by simp [current, hOutermost]
      obtain ⟨-, hFault, -⟩ := Cursor.of_run_takeBlock_error hRun
      constructor
      · exact hOutermost
      · rw [hFault, Cursor.unterminated, hCurrent, hSound.whole]

end CursorStack
end ProtoIdl
