import ProtoIdl.Parser.Loop

/-!
# Runs of single steps

What one step of a parser does, told by the tokens ahead of the cursor, and what one round of
a loop does.
-/

namespace ProtoIdl

/-- The cursor after the next token. -/
def Cursor.past (cursor : Cursor) (token : Token) (rest : List Token) : Cursor :=
  { cursor with seen := token :: cursor.seen, rest := rest }

/-- The same answer elsewhere: `done` leads on from a value, and `stopped` from an error. -/
def Reply.finish (done stopped : Cursor → Cursor) : Reply α → Reply α
  | .ok value after => .ok value (done after)
  | .error fault after => .error fault (stopped after)

/-- The answer is this error. -/
def Reply.Fails (fault : ParseError) (reply : Reply α) : Prop :=
  ∃ after, reply = .error fault after

namespace Parser

/-- A second parser does not undo the error of the first. -/
theorem fails_bind {first : Parser α} {fault : ParseError} {cursor : Cursor}
    (hFails : (first.run cursor).Fails fault) (second : α → Parser β) :
    ((first >>= second).run cursor).Fails fault := by
  obtain ⟨after, hRun⟩ := hFails
  exact ⟨after, by rw [run_bind, hRun]⟩

/-! ## Single tokens -/

theorem run_advance_cons {cursor : Cursor} {token : Token} {rest : List Token}
    (hRest : cursor.rest = token :: rest) :
    advance.run cursor = .ok (some token) (cursor.past token rest) := by
  simp [advance, hRest, Cursor.past]

theorem run_next_bind {cursor : Cursor} {token : Token} {rest : List Token}
    {second : Token → Parser β} (expected context : String)
    (hRest : cursor.rest = token :: rest) :
    (next expected context >>= second).run cursor =
      (second token).run (cursor.past token rest) := by
  simp [next, run_bind, run_advance_cons hRest]

/-- What starts by taking a token succeeds only if there is one. -/
theorem exists_of_run_next_bind {cursor after : Cursor} {expected context : String}
    {second : Token → Parser β} {value : β}
    (hRun : (next expected context >>= second).run cursor = .ok value after) :
    ∃ token rest, cursor.rest = token :: rest ∧
      (second token).run (cursor.past token rest) = .ok value after := by
  cases hRest : cursor.rest with
  | nil => simp [next, run_bind, advance, hRest, rejectEnd] at hRun
  | cons token rest => exact ⟨token, rest, rfl, run_next_bind expected context hRest ▸ hRun⟩

theorem run_takeIf_bind {cursor : Cursor} {accepts : Token → Bool} {token : Token}
    {rest : List Token} {second : Option Token → Parser β}
    (hRest : cursor.rest = token :: rest) (hAccepts : accepts token = true) :
    (takeIf accepts >>= second).run cursor =
      (second (some token)).run (cursor.past token rest) := by
  simp [takeIf, run_bind, hRest, hAccepts, Cursor.past]

theorem run_takeIf_bind_none {cursor : Cursor} {accepts : Token → Bool}
    {second : Option Token → Parser β}
    (hOther : ∀ token, cursor.rest.head? = some token → accepts token = false) :
    (takeIf accepts >>= second).run cursor = (second none).run cursor := by
  cases hRest : cursor.rest with
  | nil => simp [takeIf, run_bind, hRest]
  | cons token rest =>
      have hRefused := hOther token (by rw [hRest]; rfl)
      simp [takeIf, run_bind, hRest, hRefused]

theorem run_expect_bind {cursor : Cursor} {token : Token} {rest : List Token}
    {second : Unit → Parser β} (context : String) (hRest : cursor.rest = token :: rest) :
    (expect token context >>= second).run cursor = (second ()).run (cursor.past token rest) := by
  simp only [expect, bind_assoc]
  rw [run_next_bind token context hRest, if_pos rfl]
  rfl

theorem exists_of_run_expect_bind {cursor after : Cursor} {token : Token} {context : String}
    {second : Unit → Parser β} {value : β}
    (hRun : (expect token context >>= second).run cursor = .ok value after) :
    ∃ rest, cursor.rest = token :: rest ∧
      (second ()).run (cursor.past token rest) = .ok value after := by
  simp only [expect, bind_assoc] at hRun
  obtain ⟨found, rest, hRest, hFound⟩ := exists_of_run_next_bind hRun
  by_cases hSame : found = token
  · subst hSame
    rw [if_pos rfl] at hFound
    exact ⟨rest, hRest, hFound⟩
  · rw [if_neg hSame] at hFound
    cases hFound

/-- What is accepted as a name is the token itself, and no token is taken. -/
theorem of_run_checkWord {token found : Token} {context : String} {cursor after : Cursor}
    (hRun : (checkWord token context).run cursor = .ok found after) :
    token.isWordLike = true ∧ found = token ∧ after = cursor := by
  unfold checkWord at hRun
  split at hRun
  · next hWord =>
      cases hRun
      exact ⟨hWord, rfl, rfl⟩
  · cases hRun

/-- What is accepted as a number is in its interval, and no token is taken. -/
theorem of_run_numeral {interval : Numeral.Interval} {literal : Token} {context : String}
    {value : Int} {cursor after : Cursor}
    (hRun : (numeral interval literal context).run cursor = .ok value after) :
    Numeral.within? interval literal = some value ∧ after = cursor := by
  unfold numeral at hRun
  split at hRun
  · next hValue =>
      cases hRun
      exact ⟨hValue, rfl⟩
  · cases hRun

/-! ## Levels and blocks -/

/-- The same place one level down. -/
def entered (cursor : Cursor) : Cursor :=
  { cursor with depth := cursor.depth + 1 }

theorem run_enter_eq (cursor : Cursor) :
    enter.run cursor = if cursor.depth < cursor.limit then .ok () (entered cursor)
      else .error (.tooDeep cursor.limit) cursor := by
  unfold enter Cursor.enter
  by_cases hOpen : cursor.depth < cursor.limit
  · simp only [if_pos hOpen, entered]
  · simp only [if_neg hOpen]

/-- A level is open, and then what is read there decides. -/
theorem run_level_eq (body : Parser α) (cursor : Cursor) :
    (enter >>= fun _ => body >>= fun value => leave >>= fun _ => pure value).run cursor =
      if cursor.depth < cursor.limit then (body.run (entered cursor)).finish Cursor.leave id
      else .error (.tooDeep cursor.limit) cursor := by
  rw [run_bind]
  unfold enter Cursor.enter
  dsimp only
  by_cases hOpen : cursor.depth < cursor.limit
  · simp only [if_pos hOpen, run_bind]
    show (match body.run (entered cursor) with | .ok _ _ => _ | .error _ _ => _) = _
    cases body.run (entered cursor) <;> rfl
  · simp only [if_neg hOpen]

/-- The cursor over the inside of a block that follows, one level down. -/
def blockCursor (cursor : Cursor) (block : List Token) : Cursor :=
  ⟨cursor.index, [], block, cursor.depth + 1, cursor.limit⟩

/-- The cursor after a block and its closing brace. -/
def blockEnd (cursor : Cursor) (block later : List Token) : Cursor :=
  { cursor with
    seen := Token.closeBrace :: (block.reverse ++ cursor.seen)
    rest := later }

/-- The inside of a block is shorter than what is ahead. -/
theorem left_blockCursor_lt {cursor : Cursor} {block later : List Token}
    (hSplit : Cursor.splitBlock? 0 cursor.rest = some (block, later)) :
    (blockCursor cursor block).left < cursor.left := by
  simp [blockCursor, Cursor.left, Cursor.append_of_splitBlock? hSplit]

/-- A block is found, its level is open, and then its inside decides. -/
theorem run_inside_eq (context : String) (body : Parser α) (cursor : Cursor) :
    (inside context body).run cursor =
      match Cursor.splitBlock? 0 cursor.rest with
      | none => .error (cursor.unterminated Token.closeBrace context) cursor
      | some (block, later) =>
          if cursor.depth < cursor.limit then
            (body.run (blockCursor cursor block)).finish (fun _ => blockEnd cursor block later)
              fun _ => blockEnd cursor block later
          else .error (.tooDeep cursor.limit) (blockEnd cursor block later) := by
  unfold inside takeBlock
  dsimp only
  cases Cursor.splitBlock? 0 cursor.rest with
  | none => rfl
  | some parts =>
      dsimp only
      by_cases hOpen : cursor.depth < cursor.limit
      · have hEnter : Cursor.enter ⟨cursor.index, [], parts.1, cursor.depth, cursor.limit⟩ =
            .ok (blockCursor cursor parts.1) := if_pos hOpen
        rw [if_pos hOpen, hEnter]
        dsimp only
        cases body.run (blockCursor cursor parts.1) <;> rfl
      · have hEnter : Cursor.enter ⟨cursor.index, [], parts.1, cursor.depth, cursor.limit⟩ =
            .error (.tooDeep cursor.limit) := if_neg hOpen
        rw [if_neg hOpen, hEnter]
        rfl

/-- Where a block is there and may be entered, its inside decides. -/
theorem run_inside {cursor : Cursor} {block later : List Token} (context : String)
    (body : Parser α) (hSplit : Cursor.splitBlock? 0 cursor.rest = some (block, later))
    (hOpen : cursor.depth < cursor.limit) :
    (inside context body).run cursor =
      match body.run (blockCursor cursor block) with
      | .error fault _ => .error fault (blockEnd cursor block later)
      | .ok value _ => .ok value (blockEnd cursor block later) := by
  rw [run_inside_eq, hSplit]
  dsimp only
  rw [if_pos hOpen]
  cases body.run (blockCursor cursor block) <;> rfl

/-- A block that has been read is there and could be entered. -/
theorem exists_of_run_inside {cursor after : Cursor} {context : String} {body : Parser α}
    {value : α} (hRun : (inside context body).run cursor = .ok value after) :
    ∃ block later last, Cursor.splitBlock? 0 cursor.rest = some (block, later) ∧
      cursor.depth < cursor.limit ∧ body.run (blockCursor cursor block) = .ok value last ∧
        after = blockEnd cursor block later := by
  cases hSplit : Cursor.splitBlock? 0 cursor.rest with
  | none => simp [inside, takeBlock, hSplit] at hRun
  | some parts =>
      by_cases hOpen : cursor.depth < cursor.limit
      · rw [run_inside context body hSplit hOpen] at hRun
        split at hRun
        · cases hRun
        · next answer last hBody =>
            cases hRun
            exact ⟨parts.1, parts.2, last, rfl, hOpen, hBody, rfl⟩
      · simp [inside, takeBlock, hSplit, Cursor.enter, hOpen] at hRun

/-! ## Lists of items -/

section Loops

variable {head : Head η} {item : σ → η → Parser σ} {cursor between : Cursor}

theorem run_loop_of_none (hHead : head.run cursor = .ok none between) (state : σ) :
    (loop head item state).run cursor = .ok state between := by
  rw [loop_eq, run_bind, hHead]
  rfl

theorem run_loop_of_some {found : η} (hHead : head.run cursor = .ok (some found) between)
    (state : σ) :
    (loop head item state).run cursor = (item state found >>= loop head item).run between := by
  rw [loop_eq, run_bind, hHead]

end Loops

end Parser
end ProtoIdl
