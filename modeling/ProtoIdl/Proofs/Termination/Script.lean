import ProtoIdl.Parser.Primitive

/-!
# Scripts

A script is the course of a parser with its loops left open.  It is made of steps without loops
and of calls: a loop is called from a state, on the tokens ahead or on those inside of a block.
What the loops do is told elsewhere, so a script is a finite tree even where loops call each
other.

`script.Reaches cursor later after` says that a run of the script from `cursor` can come to
`later`, what is then left of it, at the cursor `after`.  The loops called on the way may have
answered anything and stopped anywhere further on, so nothing is presupposed about them.

`script.TakesFirst accepts` says that a token has been taken before any loop is called, and
before any value of the class is answered.
-/

namespace ProtoIdl

/-! ## Blocks -/

namespace Parser

/-- Take a block and answer a cursor over its inside, one level down. -/
def openBlock (context : String) : Parser Cursor := do
  let block ← takeBlock context
  ofExcept block.enter

/-- The inside of a block is shorter than what was ahead of it. -/
theorem left_lt_of_openBlock {context : String} {cursor block after : Cursor}
    (hRun : (openBlock context).run cursor = .ok block after) : block.left < cursor.left := by
  obtain ⟨taken, between, hTaken, hEnter⟩ := run_bind_eq_ok_iff.mp hRun
  exact Nat.lt_of_le_of_lt (left_le_of_enter hEnter) (left_lt_of_takeBlock hTaken)

/-- The inside of a block is read by opening the block, and the cursor around it does not depend
on what is read there. -/
theorem run_inside_openBlock (context : String) (body : Parser α) (cursor : Cursor) :
    (inside context body).run cursor =
      match (openBlock context).run cursor with
      | .error fault after => .error fault after
      | .ok block after =>
          match body.run block with
          | .error fault _ => .error fault after
          | .ok value _ => .ok value after := by
  simp only [openBlock, inside, run_bind]
  cases (takeBlock context).run cursor with
  | error fault after => rfl
  | ok block after =>
      dsimp only
      cases block.enter with
      | error fault => rfl
      | ok entered => rfl

end Parser

open ProtoIdl.Parser

/-- The course of a parser, with the loops that it calls left open. -/
inductive Script (Loop : Type) (State : Loop → Type) (α : Type) : Type 1 where
  /-- The answer. -/
  | done (value : α)
  /-- A parser without loops, and what its answer leads to. -/
  | step {β : Type} (parser : Parser β) (rest : β → Script Loop State α)
  /-- A loop over the tokens ahead, and what its answer leads to. -/
  | call (loop : Loop) (state : State loop) (rest : State loop → Script Loop State α)
  /-- A loop over the tokens inside of a block, and what its answer leads to. -/
  | inside (context : String) (loop : Loop) (state : State loop)
      (rest : State loop → Script Loop State α)

namespace Script

variable {Loop : Type} {State : Loop → Type}

/-! ## Composition -/

/-- One script, and then another that may depend on its answer. -/
def andThen : Script Loop State α → (α → Script Loop State β) → Script Loop State β
  | done value, next => next value
  | step parser rest, next => .step parser fun value => (rest value).andThen next
  | call loop state rest, next => .call loop state fun value => (rest value).andThen next
  | inside context loop state rest, next =>
      .inside context loop state fun value => (rest value).andThen next

instance : Monad (Script Loop State) where
  pure := done
  bind := andThen

instance : MonadLift Parser (Script Loop State) where
  monadLift parser := step parser done

/-- Read the tokens ahead by a loop. -/
def run (loop : Loop) (state : State loop) : Script Loop State (State loop) :=
  call loop state done

/-- Read the inside of a block by a loop. -/
def runInside (context : String) (loop : Loop) (state : State loop) :
    Script Loop State (State loop) :=
  inside context loop state done

/-- The parser that goes by a script, if `answers` are those of the loops. -/
def parser (answers : (loop : Loop) → State loop → Parser (State loop)) :
    Script Loop State α → Parser α
  | done value => pure value
  | step parser rest => parser >>= fun value => (rest value).parser answers
  | call loop state rest => answers loop state >>= fun value => (rest value).parser answers
  | inside context loop state rest =>
      Parser.inside context (answers loop state) >>= fun value => (rest value).parser answers

section Parser

variable {answers : (loop : Loop) → State loop → Parser (State loop)}

@[simp] theorem parser_pure (value : α) :
    (pure value : Script Loop State α).parser answers = pure value := rfl

@[simp] theorem parser_bind (first : Script Loop State α) (second : α → Script Loop State β) :
    (first >>= second).parser answers =
      first.parser answers >>= fun value => (second value).parser answers := by
  show (first.andThen second).parser answers = _
  induction first with
  | done value => rfl
  | step parser rest ih => simp only [andThen, Script.parser, ih, bind_assoc]
  | call loop state rest ih => simp only [andThen, Script.parser, ih, bind_assoc]
  | inside context loop state rest ih => simp only [andThen, Script.parser, ih, bind_assoc]

@[simp] theorem parser_map (change : α → β) (script : Script Loop State α) :
    (change <$> script).parser answers = change <$> script.parser answers := by
  show (script >>= fun value => pure (change value)).parser answers = _
  rw [parser_bind, map_eq_pure_bind]
  rfl

@[simp] theorem parser_lift (step : Parser α) :
    (liftM step : Script Loop State α).parser answers = step :=
  bind_pure step

@[simp] theorem parser_run (loop : Loop) (state : State loop) :
    (run loop state).parser answers = answers loop state :=
  bind_pure _

@[simp] theorem parser_runInside (context : String) (loop : Loop) (state : State loop) :
    (runInside context loop state).parser answers =
      Parser.inside context (answers loop state) :=
  bind_pure _

theorem parser_ite (condition : Prop) [Decidable condition] (first second : Script Loop State α) :
    (if condition then first else second).parser answers =
      if condition then first.parser answers else second.parser answers :=
  apply_ite _ _ _ _

end Parser

/-! ## Where a run can come to -/

/-- A run of the script from the cursor can come to the later cursor with the later script left.
The loops that it has called may have answered anything, and stopped anywhere further on. -/
inductive Reaches : Script Loop State α → Cursor → Script Loop State α → Cursor → Prop
  | here (script : Script Loop State α) (cursor : Cursor) : Reaches script cursor script cursor
  | step {β : Type} {parser : Parser β} {rest : β → Script Loop State α}
      {cursor between after : Cursor} {value : β} {later : Script Loop State α}
      (hStep : parser.run cursor = .ok value between)
      (hRest : Reaches (rest value) between later after) :
      Reaches (.step parser rest) cursor later after
  | call {loop : Loop} {state value : State loop} {rest : State loop → Script Loop State α}
      {cursor between after : Cursor} {later : Script Loop State α}
      (hOnward : cursor.Onward between) (hRest : Reaches (rest value) between later after) :
      Reaches (.call loop state rest) cursor later after
  | inside {context : String} {loop : Loop} {state value : State loop}
      {rest : State loop → Script Loop State α} {cursor block between after : Cursor}
      {later : Script Loop State α} (hBlock : (openBlock context).run cursor = .ok block between)
      (hRest : Reaches (rest value) between later after) :
      Reaches (.inside context loop state rest) cursor later after

/-- A run only moves on. -/
theorem Reaches.onward {script later : Script Loop State α} {cursor after : Cursor}
    (hReaches : script.Reaches cursor later after) : cursor.Onward after := by
  induction hReaches with
  | here script cursor => exact .refl cursor
  | step hStep _ ih => exact (onward_of_ok hStep).trans ih
  | call hOnward _ ih => exact hOnward.trans ih
  | inside hBlock _ ih => exact (onward_of_ok hBlock).trans ih

/-- What can be come to from there can be come to. -/
theorem Reaches.trans {script middle later : Script Loop State α} {cursor between after : Cursor}
    (hFirst : script.Reaches cursor middle between) (hSecond : middle.Reaches between later after) :
    script.Reaches cursor later after := by
  induction hFirst with
  | here script cursor => exact hSecond
  | step hStep _ ih => exact .step hStep (ih hSecond)
  | call hOnward _ ih => exact .call hOnward (ih hSecond)
  | inside hBlock _ ih => exact .inside hBlock (ih hSecond)

/-- A run of a composed script is in its first part, or it has come to an answer of that and is
in the second. -/
theorem Reaches.of_bind {first : Script Loop State α} {second : α → Script Loop State β}
    {later : Script Loop State β} {cursor after : Cursor}
    (hReaches : (first >>= second).Reaches cursor later after) :
    (∃ rest, first.Reaches cursor rest after ∧ later = rest >>= second) ∨
      ∃ value between, first.Reaches cursor (done value) between ∧
        (second value).Reaches between later after := by
  induction first generalizing cursor with
  | done value => exact .inr ⟨value, cursor, .here _ _, hReaches⟩
  | step parser rest ih =>
      cases hReaches with
      | here => exact .inl ⟨_, .here _ _, rfl⟩
      | step hStep hRest =>
          obtain ⟨left, hLeft, hLater⟩ | ⟨value, between, hFirst, hSecond⟩ := ih _ hRest
          · exact .inl ⟨left, .step hStep hLeft, hLater⟩
          · exact .inr ⟨value, between, .step hStep hFirst, hSecond⟩
  | call loop state rest ih =>
      cases hReaches with
      | here => exact .inl ⟨_, .here _ _, rfl⟩
      | call hOnward hRest =>
          obtain ⟨left, hLeft, hLater⟩ | ⟨value, between, hFirst, hSecond⟩ := ih _ hRest
          · exact .inl ⟨left, .call hOnward hLeft, hLater⟩
          · exact .inr ⟨value, between, .call hOnward hFirst, hSecond⟩
  | inside context loop state rest ih =>
      cases hReaches with
      | here => exact .inl ⟨_, .here _ _, rfl⟩
      | inside hBlock hRest =>
          obtain ⟨left, hLeft, hLater⟩ | ⟨value, between, hFirst, hSecond⟩ := ih _ hRest
          · exact .inl ⟨left, .inside hBlock hLeft, hLater⟩
          · exact .inr ⟨value, between, .inside hBlock hFirst, hSecond⟩

/-! ## Taking a token first -/

/-- What is left begins with a call of a loop, or it is an answer of the class. -/
def IsDue (accepts : α → Prop) : Script Loop State α → Prop
  | done value => accepts value
  | step _ _ => False
  | call _ _ _ => True
  | inside _ _ _ _ => True

/-- A token is taken before any loop is called, and before any value of the class is answered. -/
def TakesFirst (script : Script Loop State α) (accepts : α → Prop) : Prop :=
  ∀ cursor later after, script.Reaches cursor later after → later.IsDue accepts →
    after.left < cursor.left

section TakesFirst

variable {accepts : β → Prop} {taking : α → Prop}

theorem takesFirst_pure {value : β} (hOther : ¬accepts value) :
    (pure value : Script Loop State β).TakesFirst accepts := by
  intro cursor later after hReaches hDue
  cases hReaches with
  | here => exact absurd hDue hOther

/-- A step calls no loop, so what it takes is taken first. -/
theorem takesFirst_lift {parser : Parser α} (hTakes : parser.Consumes taking) :
    (liftM parser : Script Loop State α).TakesFirst taking := by
  intro cursor later after hReaches hDue
  cases hReaches with
  | here => exact absurd hDue id
  | @step _ _ _ _ _ _ value _ hStep hLater =>
      cases hLater with
      | here => exact hTakes cursor value after hStep hDue

/-- A step calls no loop, so it need not take a token where none of its answers is of the
class. -/
theorem takesFirst_lift_never (parser : Parser α) :
    (liftM parser : Script Loop State α).TakesFirst fun _ => False :=
  takesFirst_lift fun _ _ _ _ hNever => hNever.elim

/-- What starts by taking a token for some of its answers, and goes on to take one first after
the others, takes one first. -/
theorem TakesFirst.bind_of {first : Script Loop State α} {second : α → Script Loop State β}
    (hFirst : first.TakesFirst taking)
    (hSecond : ∀ value, ¬taking value → (second value).TakesFirst accepts) :
    (first >>= second).TakesFirst accepts := by
  intro cursor later after hReaches hDue
  obtain ⟨rest, hRest, rfl⟩ | ⟨value, between, hAnswer, hLater⟩ := hReaches.of_bind
  · cases rest with
    | step parser rest => exact absurd hDue id
    | call loop state rest => exact hFirst cursor _ after hRest trivial
    | inside context loop state rest => exact hFirst cursor _ after hRest trivial
    | done value =>
        by_cases hTaking : taking value
        · exact hFirst cursor _ after hRest hTaking
        · -- The second script would take a token although it is where it starts.
          have hLeft := hSecond value hTaking after _ after (.here _ _) hDue
          omega
  · by_cases hTaking : taking value
    · have hTaken := hFirst cursor _ between hAnswer hTaking
      have hOnward := hLater.onward.left_le
      omega
    · have hTaken := hSecond value hTaking between later after hLater hDue
      have hOnward := hAnswer.onward.left_le
      omega

/-- What starts by taking a token takes one first. -/
theorem TakesFirst.bind {first : Script Loop State α} {second : α → Script Loop State β}
    (hFirst : first.TakesFirst fun _ => True) : (first >>= second).TakesFirst accepts :=
  .bind_of hFirst fun _ hOther => absurd trivial hOther

/-- A step may come before. -/
theorem TakesFirst.after_step {parser : Parser α} {rest : α → Script Loop State β}
    (hRest : ∀ value, (rest value).TakesFirst accepts) :
    (liftM parser >>= rest).TakesFirst accepts :=
  .bind_of (takesFirst_lift_never parser) fun value _ => hRest value

end TakesFirst

end Script
end ProtoIdl
