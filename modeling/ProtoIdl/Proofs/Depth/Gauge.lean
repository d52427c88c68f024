import ProtoIdl.Parser.Loop
import ProtoIdl.Proofs.Parser.Running

/-!
# Runs under a lower limit

`parser.Gauged before levels cursor` compares the run of `parser` from `cursor` with its
run from the same place under a lower limit.  Where the first run answers a value, `levels`
says how deep the value reaches below the cursor: the second run answers the same value if
that is within the lower limit, and is refused a level if it is not.  Where the first run
fails, the second one fails in the same way or is refused a level.

A parser that adds to what has been read starts from a value that reaches `before` levels
down, and the comparison is made where these levels are within the lower limit.  A parser
that never changes its level is `Levelless`, and runs alike under all limits.
-/

namespace ProtoIdl

/-- The same place under another limit. -/
def Cursor.withLimit (cursor : Cursor) (limit : Nat) : Cursor :=
  { cursor with limit := limit }

/-- The same answer at the same place under another limit. -/
def Reply.withLimit (limit : Nat) : Reply α → Reply α
  | .ok value cursor => .ok value (cursor.withLimit limit)
  | .error fault cursor => .error fault (cursor.withLimit limit)

/-- How the answer `tight` under a lower limit compares with another answer, for runs that
start at the level `depth`. -/
def Reply.Gauges (limit depth before : Nat) (levels : α → Nat) : Reply α → Reply α → Prop
  | .error fault _, tight => tight.Fails fault ∨ tight.Fails (.tooDeep limit)
  | .ok value after, tight =>
      after.depth = depth ∧ before ≤ levels value ∧
        if depth + levels value ≤ limit then tight = .ok value (after.withLimit limit)
        else tight.Fails (.tooDeep limit)

/-- What is read one level down is gauged from the level above.  A lower limit that refuses
the level refuses all that is read there. -/
theorem Reply.gauges_below {limit bound depth : Nat} {levels : α → Nat} {inner tight : Reply α}
    {done stopped tightDone tightStopped : Cursor → Cursor} {start tightStart : Cursor}
    (hLimit : limit ≤ bound)
    (hInner : depth < limit → inner.Gauges limit (depth + 1) 0 levels tight)
    (hDepth : ∀ value after, inner = .ok value after → depth < bound → (done after).depth = depth)
    (hDone : ∀ after, tightDone (after.withLimit limit) = (done after).withLimit limit) :
    Reply.Gauges limit depth 0 (fun value => levels value + 1)
      (if depth < bound then inner.finish done stopped else .error (.tooDeep bound) start)
      (if depth < limit then tight.finish tightDone tightStopped
        else .error (.tooDeep limit) tightStart) := by
  by_cases hOpen : depth < limit
  · -- the level is open in both runs
    have hRead := hInner hOpen
    rw [if_pos (Nat.lt_of_lt_of_le hOpen hLimit), if_pos hOpen]
    cases inner with
    | error fault last =>
        exact hRead.imp (fun ⟨_, hFails⟩ => ⟨_, by rw [hFails]; rfl⟩)
          fun ⟨_, hFails⟩ => ⟨_, by rw [hFails]; rfl⟩
    | ok value last =>
        obtain ⟨-, -, hRead⟩ := hRead
        refine ⟨hDepth value last rfl (Nat.lt_of_lt_of_le hOpen hLimit), Nat.zero_le _, ?_⟩
        have hLevel : depth + (levels value + 1) = depth + 1 + levels value := by omega
        rw [hLevel]
        split at hRead
        · next hWithin =>
            rw [if_pos hWithin, hRead, Reply.finish, hDone]
        · next hWithin =>
            obtain ⟨_, hFails⟩ := hRead
            rw [if_neg hWithin, hFails]
            exact ⟨_, rfl⟩
  · -- the lower limit refuses the level, and what is read there would have reached below it
    rw [if_neg hOpen]
    split
    · next hBound =>
        cases inner with
        | error fault last => exact .inr ⟨_, rfl⟩
        | ok value last =>
            have hBeyond : ¬depth + (levels value + 1) ≤ limit := by omega
            refine ⟨hDepth value last rfl hBound, Nat.zero_le _, ?_⟩
            rw [if_neg hBeyond]
            exact ⟨_, rfl⟩
    · exact .inr ⟨_, rfl⟩

namespace Parser

/-! ## Parsers without levels -/

/-- The parser stays at its level and runs alike under all limits. -/
structure Levelless (parser : Parser α) : Prop where
  depth_eq : ∀ cursor, (parser.run cursor).cursor.depth = cursor.depth
  run_withLimit : ∀ cursor limit,
    parser.run (cursor.withLimit limit) = (parser.run cursor).withLimit limit

namespace Levelless

theorem pure (value : α) : Levelless (pure value : Parser α) :=
  ⟨fun _ => rfl, fun _ _ => rfl⟩

theorem fail (fault : ParseError) : Levelless (fail fault : Parser α) :=
  ⟨fun _ => rfl, fun _ _ => rfl⟩

theorem bind {first : Parser α} {second : α → Parser β} (hFirst : Levelless first)
    (hSecond : ∀ value, Levelless (second value)) : Levelless (first >>= second) := by
  constructor
  · intro cursor
    have hDepth := hFirst.depth_eq cursor
    rw [run_bind]
    cases hRun : first.run cursor with
    | error fault after => rwa [hRun] at hDepth
    | ok value after =>
        rw [hRun] at hDepth
        exact ((hSecond value).depth_eq after).trans hDepth
  · intro cursor limit
    rw [run_bind, run_bind, hFirst.run_withLimit]
    cases hRun : first.run cursor with
    | error fault after => rfl
    | ok value after => exact (hSecond value).run_withLimit after limit

theorem peekNth (n : Nat) : Levelless (peekNth n) :=
  ⟨fun _ => rfl, fun _ _ => rfl⟩

theorem peek : Levelless peek :=
  .peekNth 0

theorem rejectNth (n : Nat) (context : String) : Levelless (rejectNth n context : Parser α) :=
  ⟨fun _ => rfl, fun _ _ => rfl⟩

theorem rejectLast (context : String) : Levelless (rejectLast context : Parser α) :=
  ⟨fun _ => rfl, fun _ _ => rfl⟩

theorem rejectEnd (expected context : String) :
    Levelless (rejectEnd expected context : Parser α) :=
  ⟨fun _ => rfl, fun _ _ => rfl⟩

theorem advance : Levelless advance := by
  constructor
  · intro cursor
    simp only [Parser.advance]
    split <;> rfl
  · rintro ⟨base, seen, rest, depth, _⟩ limit
    cases rest <;> rfl

theorem takeIf (accepts : Token → Bool) : Levelless (takeIf accepts) := by
  constructor
  · intro cursor
    simp only [Parser.takeIf]
    split
    · rfl
    · split <;> rfl
  · rintro ⟨base, seen, rest, depth, _⟩ limit
    cases rest with
    | nil => rfl
    | cons token rest =>
        simp only [Parser.takeIf, Cursor.withLimit]
        split <;> rfl

theorem takeComments : Levelless takeComments :=
  ⟨fun _ => rfl, fun _ _ => rfl⟩

theorem eat (token : Token) : Levelless (eat token) :=
  .bind (.takeIf _) fun _ => .pure _

theorem next (expected context : String) : Levelless (next expected context) := by
  refine .bind .advance fun found => ?_
  cases found with
  | some token => exact .pure token
  | none => exact .rejectEnd expected context

theorem expect (token : Token) (context : String) : Levelless (expect token context) := by
  refine .bind (.next _ _) fun found => ?_
  split
  · exact .pure ()
  · exact .rejectLast context

theorem checkWord (token : Token) (context : String) : Levelless (checkWord token context) := by
  unfold Parser.checkWord
  split
  · exact .pure token
  · exact .rejectLast context

theorem word (expected context : String) : Levelless (word expected context) :=
  .bind (.next _ _) fun _ => .checkWord _ _

theorem numeral (interval : Numeral.Interval) (literal : Token) (context : String) :
    Levelless (numeral interval literal context) := by
  unfold Parser.numeral
  split
  · exact .pure _
  · exact .fail _

theorem memberHead (context : String) : Levelless (memberHead context).toParser := by
  refine .bind .takeComments fun _ => ?_
  refine .bind (.next _ _) fun first => ?_
  exact .pure _

theorem statementHead : Levelless statementHead.toParser := by
  refine .bind .takeComments fun _ => ?_
  refine .bind .advance fun found => ?_
  exact .pure _

theorem commaHead (close : Token) (context : String) :
    Levelless (commaHead close context).toParser := by
  refine .bind (.next _ _) fun token => ?_
  split
  · exact .pure _
  · split
    · exact .pure _
    · exact .rejectLast context

end Levelless

/-! ## The comparison -/

/-- Under a lower limit the parser answers as from the cursor, unless its answer reaches
below that limit. -/
def Gauged (parser : Parser α) (before : Nat) (levels : α → Nat) (cursor : Cursor) : Prop :=
  ∀ limit, limit ≤ cursor.limit → cursor.depth + before ≤ limit →
    (parser.run cursor).Gauges limit cursor.depth before levels
      (parser.run (cursor.withLimit limit))

namespace Gauged

variable {cursor : Cursor} {before : Nat}

/-- A value that is answered lies within the limit, and the parser is back at its level. -/
theorem of_ok {parser : Parser α} {levels : α → Nat} {value : α} {after : Cursor}
    (hGauged : Gauged parser before levels cursor)
    (hBefore : cursor.depth + before ≤ cursor.limit)
    (hRun : parser.run cursor = .ok value after) :
    after.depth = cursor.depth ∧ before ≤ levels value ∧
      cursor.depth + levels value ≤ cursor.limit := by
  have hSame := hGauged cursor.limit (Nat.le_refl _) hBefore
  rw [show cursor.withLimit cursor.limit = cursor from rfl, hRun] at hSame
  obtain ⟨hDepth, hLevels, hOutcome⟩ := hSame
  refine ⟨hDepth, hLevels, ?_⟩
  by_cases hWithin : cursor.depth + levels value ≤ cursor.limit
  · exact hWithin
  · rw [if_neg hWithin] at hOutcome
    obtain ⟨_, hFails⟩ := hOutcome
    cases hFails

/-- A value that reaches no deeper than what has been read is answered under all limits. -/
theorem pure {value : α} {levels : α → Nat} (hLevels : levels value = before) :
    Gauged (pure value) before levels cursor := by
  intro limit _ hBefore
  refine ⟨rfl, Nat.le_of_eq hLevels.symm, ?_⟩
  rw [if_pos (by omega)]
  rfl

theorem fail {levels : α → Nat} (fault : ParseError) :
    Gauged (fail fault) before levels cursor :=
  fun _ _ _ => .inl ⟨_, rfl⟩

theorem rejectLast {levels : α → Nat} (context : String) :
    Gauged (rejectLast context) before levels cursor :=
  fun _ _ _ => .inl ⟨_, rfl⟩

theorem ofExcept {result : Except ParseError α} {levels : α → Nat}
    (hLevels : ∀ value, result = .ok value → levels value = before) :
    Gauged (Parser.ofExcept result) before levels cursor := by
  cases result with
  | ok value => exact .pure (hLevels value rfl)
  | error fault => exact .fail fault

theorem of_levelless {parser : Parser α} (hParser : Levelless parser) :
    Gauged parser before (fun _ => before) cursor := by
  intro limit _ hBefore
  have hDepth := hParser.depth_eq cursor
  rw [hParser.run_withLimit]
  cases hRun : parser.run cursor with
  | error fault after => exact .inl ⟨_, rfl⟩
  | ok value after =>
      rw [hRun] at hDepth
      refine ⟨hDepth, Nat.le_refl _, ?_⟩
      rw [if_pos hBefore]
      rfl

/-- The second part goes on from what the first one has read. -/
theorem bind {first : Parser α} {second : α → Parser β} {middle : α → Nat} {levels : β → Nat}
    (hFirst : Gauged first before middle cursor)
    (hSecond : ∀ value between, first.run cursor = .ok value between →
      Gauged (second value) (middle value) levels between) :
    Gauged (first >>= second) before levels cursor := by
  intro limit hLimit hBefore
  have hOutcome := hFirst limit hLimit hBefore
  rw [run_bind first second cursor]
  cases hRun : first.run cursor with
  | error fault after =>
      rw [hRun] at hOutcome
      exact hOutcome.imp (fails_bind · second) (fails_bind · second)
  | ok value between =>
      rw [hRun] at hOutcome
      obtain ⟨hDepth, hLe, hOutcome⟩ := hOutcome
      have hOnward := onward_of_ok hRun
      have hWithin := (hFirst.of_ok (Nat.le_trans hBefore hLimit) hRun).2.2
      have hNext := hSecond value between hRun
      by_cases hMiddle : cursor.depth + middle value ≤ limit
      · -- the second part starts from the same place in both runs
        rw [if_pos hMiddle] at hOutcome
        have hRest := hNext limit (by rw [hOnward.limit_eq]; exact hLimit) (by omega)
        rw [run_bind, hOutcome]
        dsimp only
        cases hLast : (second value).run between with
        | error fault after =>
            rw [hLast] at hRest
            exact hRest
        | ok answer after =>
            rw [hLast] at hRest
            obtain ⟨hDepth', hLe', hRest⟩ := hRest
            exact ⟨hDepth'.trans hDepth, Nat.le_trans hLe hLe', hDepth ▸ hRest⟩
      · -- the first part is refused a level already, and the answer reaches as deep at least
        rw [if_neg hMiddle] at hOutcome
        dsimp only
        cases hLast : (second value).run between with
        | error fault after => exact .inr (fails_bind hOutcome second)
        | ok answer after =>
            have hLimitEq := hOnward.limit_eq
            obtain ⟨hDepth', hLe', -⟩ := hNext.of_ok (by omega) hLast
            refine ⟨hDepth'.trans hDepth, Nat.le_trans hLe hLe', ?_⟩
            rw [if_neg (by omega)]
            exact fails_bind hOutcome second

/-- What comes before the first level does not matter. -/
theorem after_levelless {first : Parser α} {second : α → Parser β} {levels : β → Nat}
    (hFirst : Levelless first)
    (hSecond : ∀ value between, first.run cursor = .ok value between →
      Gauged (second value) before levels between) :
    Gauged (first >>= second) before levels cursor :=
  .bind (.of_levelless hFirst) hSecond

/-- A part is read for a whole that reaches deeper than what the part starts from. -/
theorem raise {parser : Parser α} {own : Nat} {levels raised : α → Nat}
    (hParser : Gauged parser own levels cursor) (hOwn : own ≤ before)
    (hRaised : ∀ value, own ≤ levels value → raised value = max before (levels value)) :
    Gauged parser before raised cursor := by
  intro limit hLimit hBefore
  have hOutcome := hParser limit hLimit (by omega)
  cases hRun : parser.run cursor with
  | error fault after =>
      rw [hRun] at hOutcome
      exact hOutcome
  | ok value after =>
      rw [hRun] at hOutcome
      obtain ⟨hDepth, hLe, hOutcome⟩ := hOutcome
      have hLevels := hRaised value hLe
      refine ⟨hDepth, by omega, ?_⟩
      by_cases hWithin : cursor.depth + levels value ≤ limit
      · rw [if_pos hWithin] at hOutcome
        rw [if_pos (by omega)]
        exact hOutcome
      · rw [if_neg hWithin] at hOutcome
        rw [if_neg (by omega)]
        exact hOutcome

/-- A part is read and built into a whole. -/
theorem read {first : Parser α} {build : α → β} {own : Nat} {part : α → Nat} {levels : β → Nat}
    (hFirst : Gauged first own part cursor) (hOwn : own ≤ before)
    (hBuild : ∀ value, own ≤ part value → levels (build value) = max before (part value)) :
    Gauged (first >>= fun value => Pure.pure (build value)) before levels cursor := by
  have hRaised : Gauged first before (fun value => levels (build value)) cursor :=
    hFirst.raise hOwn hBuild
  exact hRaised.bind fun value _ _ => .pure rfl

/-! ## Lists of items -/

/-- A loop reads a list whose levels are those of its items.  The items need to be compared
where fewer tokens are ahead. -/
theorem loop {head : Head η} {item : σ → η → Parser σ} {levels : σ → Nat}
    (hHead : Levelless head.toParser)
    (hItem : ∀ state found (start : Cursor), start.left < cursor.left →
      Gauged (item state found) (levels state) levels start)
    (state : σ) : Gauged (loop head item state) (levels state) levels cursor := by
  induction hLeft : cursor.left using Nat.strongRecOn generalizing state cursor with
  | ind left ih =>
      rw [loop_eq]
      refine .after_levelless hHead fun found between hRun => ?_
      cases found with
      | none => exact .pure rfl
      | some found =>
          have hLess := head.progress cursor _ between hRun rfl
          refine .bind (hItem state found between hLess) fun grown after hItemRun => ?_
          have hLe := (onward_of_ok hItemRun).left_le
          refine ih after.left (by omega) ?_ grown rfl
          exact fun state found start hStart => hItem state found start (by omega)

theorem commaList {item : σ → Parser σ} {levels : σ → Nat}
    (hItem : ∀ state start, Gauged (item state) (levels state) levels start) (close : Token)
    (context : String) (state : σ) :
    Gauged (commaList close context item state) (levels state) levels cursor :=
  .bind (hItem state cursor) fun first _ _ =>
    .loop (.commaHead close context) (fun state _ start _ => hItem state start) first

/-! ## Levels -/

/-- The inside of a block lies one level down. -/
theorem inside {body : Parser α} {levels : α → Nat} {context : String}
    (hBody : ∀ entered : Cursor, entered.left < cursor.left → Gauged body 0 levels entered) :
    Gauged (inside context body) 0 (fun value => levels value + 1) cursor := by
  intro limit hLimit _
  have hRest : (cursor.withLimit limit).rest = cursor.rest := rfl
  rw [run_inside_eq, run_inside_eq, hRest]
  cases hSplit : Cursor.splitBlock? 0 cursor.rest with
  | none => exact .inl ⟨_, rfl⟩
  | some parts =>
      exact Reply.gauges_below hLimit (hBody _ (left_blockCursor_lt hSplit) limit hLimit)
        (fun _ _ _ _ => rfl) fun _ => rfl

/-- What is read between entering a level and leaving it lies one level down. -/
theorem level {body : Parser α} {levels : α → Nat}
    (hBody : ∀ entered, cursor.Onward entered → Gauged body 0 levels entered) :
    Gauged (enter >>= fun _ => body >>= fun value => leave >>= fun _ => Pure.pure value) 0
      (fun value => levels value + 1) cursor := by
  intro limit hLimit _
  have hRead := hBody (entered cursor) (.of_depth cursor _)
  rw [run_level_eq, run_level_eq]
  refine Reply.gauges_below hLimit (hRead limit hLimit) ?_ fun _ => rfl
  intro value after hRun hOpen
  have hDepth := (hRead.of_ok hOpen hRun).1
  simp [Cursor.leave, hDepth, entered]

end Gauged
end Parser
end ProtoIdl
