import ProtoIdl.Proofs.Termination.Script

/-!
# Loops that call each other

`Rounds` gives for every loop what one round of it does, as a script that may call any of the
loops, the loop itself included.  After a round a loop goes on from a further state, or it is
done.  Nothing bounds the rounds or the calls: `script.Runs rounds cursor reply` holds if a run
that goes on round after round comes to an end with this reply.  There may be none: a loop that
goes on from where it is has no run (`Script.Runs.ne_call_of_idle`).

If in every round a token is taken before a loop is called, and before the loop goes on, then
each call and each further round has fewer tokens ahead than the round that leads to it.  So
there is no endless chain of them (`Progressive.wellFounded_starts`), and every run comes to an
end (`Progressive.exists_runs`).
-/

namespace ProtoIdl

open ProtoIdl.Parser

/-- What one round of every loop does.  It answers the state from which the loop goes on, or the
last state. -/
abbrev Rounds (Loop : Type) (State : Loop → Type) : Type 1 :=
  (loop : Loop) → State loop → Script Loop State (ForInStep (State loop))

/-- A loop that is called from a state at a cursor. -/
structure Activation (Loop : Type) (State : Loop → Type) where
  loop : Loop
  state : State loop
  cursor : Cursor

variable {Loop : Type} {State : Loop → Type}

/-- A loop from a state on: one round, and then the loop again unless it is done. -/
def Rounds.repeated (rounds : Rounds Loop State) (loop : Loop) (state : State loop) :
    Script Loop State (State loop) := do
  match ← rounds loop state with
  | .yield next => Script.run loop next
  | .done last => return last

/-! ## Calls -/

/-- A run of the script from the cursor can call the loop of the activation, at its cursor and
from its state. -/
inductive Script.Calls (script : Script Loop State α) (cursor : Cursor) :
    Activation Loop State → Prop
  | ahead {loop : Loop} {state : State loop} {rest : State loop → Script Loop State α}
      {after : Cursor} (hReaches : script.Reaches cursor (.call loop state rest) after) :
      Calls script cursor ⟨loop, state, after⟩
  | inBlock {context : String} {loop : Loop} {state : State loop}
      {rest : State loop → Script Loop State α} {around block after : Cursor}
      (hReaches : script.Reaches cursor (.inside context loop state rest) around)
      (hBlock : (openBlock context).run around = .ok block after) :
      Calls script cursor ⟨loop, state, block⟩

/-- What is called from where a run can come to is called by the run. -/
theorem Script.Calls.of_reaches {script later : Script Loop State α} {cursor after : Cursor}
    {callee : Activation Loop State} (hReaches : script.Reaches cursor later after)
    (hCalls : later.Calls after callee) : script.Calls cursor callee := by
  cases hCalls with
  | ahead hLater => exact .ahead (hReaches.trans hLater)
  | inBlock hLater hBlock => exact .inBlock (hReaches.trans hLater) hBlock

/-- The first activation can lead to the second: its round is followed by that as the next round
of the same loop, or it calls that on the way. -/
def Rounds.Starts (rounds : Rounds Loop State) (caller callee : Activation Loop State) : Prop :=
  (rounds.repeated caller.loop caller.state).Calls caller.cursor callee

/-! ## Runs -/

/-- The runs that come to an end.  A call is answered by a run of the loop. -/
inductive Script.Runs (rounds : Rounds Loop State) :
    {α : Type} → Script Loop State α → Cursor → Reply α → Prop
  | done {α : Type} (value : α) (cursor : Cursor) :
      Runs rounds (.done value) cursor (.ok value cursor)
  | step {α β : Type} {parser : Parser β} {rest : β → Script Loop State α}
      {cursor between : Cursor} {value : β} {reply : Reply α}
      (hStep : parser.run cursor = .ok value between)
      (hRest : Runs rounds (rest value) between reply) :
      Runs rounds (.step parser rest) cursor reply
  | step_fails {α β : Type} {parser : Parser β} {rest : β → Script Loop State α}
      {cursor after : Cursor} {fault : ParseError}
      (hStep : parser.run cursor = .error fault after) :
      Runs rounds (.step parser rest) cursor (.error fault after)
  | call {α : Type} {loop : Loop} {state value : State loop}
      {rest : State loop → Script Loop State α} {cursor between : Cursor} {reply : Reply α}
      (hLoop : Runs rounds (rounds.repeated loop state) cursor (.ok value between))
      (hRest : Runs rounds (rest value) between reply) :
      Runs rounds (.call loop state rest) cursor reply
  | call_fails {α : Type} {loop : Loop} {state : State loop}
      {rest : State loop → Script Loop State α} {cursor after : Cursor} {fault : ParseError}
      (hLoop : Runs rounds (rounds.repeated loop state) cursor (.error fault after)) :
      Runs rounds (.call loop state rest) cursor (.error fault after)
  | inside {α : Type} {context : String} {loop : Loop} {state value : State loop}
      {rest : State loop → Script Loop State α} {cursor block between last : Cursor}
      {reply : Reply α} (hBlock : (openBlock context).run cursor = .ok block between)
      (hLoop : Runs rounds (rounds.repeated loop state) block (.ok value last))
      (hRest : Runs rounds (rest value) between reply) :
      Runs rounds (.inside context loop state rest) cursor reply
  | inside_fails {α : Type} {context : String} {loop : Loop} {state : State loop}
      {rest : State loop → Script Loop State α} {cursor block between last : Cursor}
      {fault : ParseError} (hBlock : (openBlock context).run cursor = .ok block between)
      (hLoop : Runs rounds (rounds.repeated loop state) block (.error fault last)) :
      Runs rounds (.inside context loop state rest) cursor (.error fault between)
  | block_fails {α : Type} {context : String} {loop : Loop} {state : State loop}
      {rest : State loop → Script Loop State α} {cursor after : Cursor} {fault : ParseError}
      (hBlock : (openBlock context).run cursor = .error fault after) :
      Runs rounds (.inside context loop state rest) cursor (.error fault after)

/-- The runs of a script answer what the parser answers that goes by it, if the answers of the
loops are those of their rounds. -/
theorem Script.Runs.run_eq {rounds : Rounds Loop State}
    {answers : (loop : Loop) → State loop → Parser (State loop)}
    (hLoops : ∀ loop state, answers loop state = (rounds.repeated loop state).parser answers)
    {script : Script Loop State α} {cursor : Cursor} {reply : Reply α}
    (hRuns : script.Runs rounds cursor reply) : (script.parser answers).run cursor = reply := by
  -- For a call, the induction gives what the rounds of the loop answer; the parser has the loop.
  induction hRuns with
  | done value cursor => rfl
  | step hStep _ ih => simpa only [Script.parser, run_bind, hStep] using ih
  | step_fails hStep => simp only [Script.parser, run_bind, hStep]
  | @call _ loop state _ _ _ _ _ _ _ ihLoop ih =>
      rw [← hLoops] at ihLoop
      simpa only [Script.parser, run_bind, ihLoop] using ih
  | call_fails _ ihLoop =>
      rw [← hLoops] at ihLoop
      simp only [Script.parser, run_bind, ihLoop]
  | inside hBlock _ _ ihLoop ih =>
      rw [← hLoops] at ihLoop
      simpa only [Script.parser, run_bind, run_inside_openBlock, hBlock, ihLoop] using ih
  | inside_fails hBlock _ ihLoop =>
      rw [← hLoops] at ihLoop
      simp only [Script.parser, run_bind, run_inside_openBlock, hBlock, ihLoop]
  | block_fails hBlock => simp only [Script.parser, run_bind, run_inside_openBlock, hBlock]

/-- A run that has answered a value could come to it. -/
theorem Script.Runs.reaches {rounds : Rounds Loop State} {script : Script Loop State α}
    {cursor : Cursor} {reply : Reply α} (hRuns : script.Runs rounds cursor reply) :
    ∀ value after, reply = .ok value after → script.Reaches cursor (.done value) after := by
  induction hRuns with
  | done value cursor => rintro _ _ ⟨⟩; exact .here _ _
  | step hStep _ ih => exact fun value after hReply => .step hStep (ih value after hReply)
  | call _ _ ihLoop ih =>
      exact fun value after hReply => .call (ihLoop _ _ rfl).onward (ih value after hReply)
  | inside hBlock _ _ _ ih => exact fun value after hReply => .inside hBlock (ih value after hReply)
  | step_fails | call_fails | inside_fails | block_fails => rintro _ _ ⟨⟩

/-- A loop that goes on from where it is has no run, and what begins by calling it has none. -/
theorem Script.Runs.ne_call_of_idle {rounds : Rounds Loop State} {loop : Loop} {state : State loop}
    (hIdle : rounds loop state = pure (.yield state)) {script : Script Loop State α}
    {cursor : Cursor} {reply : Reply α} (hRuns : script.Runs rounds cursor reply) :
    ∀ rest, script ≠ .call loop state rest := by
  have hSelf : rounds.repeated loop state = .call loop state .done := by
    rw [Rounds.repeated, hIdle]
    rfl
  -- A run of the call holds a smaller run of the loop, and that is a run of the call again.
  induction hRuns with
  | call _ _ ihLoop _ => rintro _ ⟨⟩; exact ihLoop _ hSelf
  | call_fails _ ihLoop => rintro _ ⟨⟩; exact ihLoop _ hSelf
  | done | step | step_fails | inside | inside_fails | block_fails => rintro _ ⟨⟩

/-- A script comes to an end if every loop that it calls does. -/
theorem Script.exists_runs_of_calls {rounds : Rounds Loop State} (script : Script Loop State α)
    (cursor : Cursor)
    (hCalls : ∀ callee : Activation Loop State, script.Calls cursor callee →
      ∃ reply, (rounds.repeated callee.loop callee.state).Runs rounds callee.cursor reply) :
    ∃ reply, script.Runs rounds cursor reply := by
  induction script generalizing cursor with
  | done value => exact ⟨_, .done value cursor⟩
  | step parser rest ih =>
      cases hStep : parser.run cursor with
      | error fault after => exact ⟨_, .step_fails hStep⟩
      | ok value between =>
          obtain ⟨reply, hRest⟩ := ih value between fun callee hCallee =>
            hCalls callee (.of_reaches (.step hStep (.here _ _)) hCallee)
          exact ⟨reply, .step hStep hRest⟩
  | call loop state rest ih =>
      obtain ⟨answer, hLoop⟩ := hCalls ⟨loop, state, cursor⟩ (.ahead (.here _ _))
      cases answer with
      | error fault after => exact ⟨_, .call_fails hLoop⟩
      | ok value between =>
          have hOnward := (hLoop.reaches value between rfl).onward
          obtain ⟨reply, hRest⟩ := ih value between fun callee hCallee =>
            hCalls callee (.of_reaches (.call hOnward (.here _ _)) hCallee)
          exact ⟨reply, .call hLoop hRest⟩
  | inside context loop state rest ih =>
      cases hBlock : (openBlock context).run cursor with
      | error fault after => exact ⟨_, .block_fails hBlock⟩
      | ok block between =>
          obtain ⟨answer, hLoop⟩ := hCalls ⟨loop, state, block⟩ (.inBlock (.here _ _) hBlock)
          cases answer with
          | error fault last => exact ⟨_, .inside_fails hBlock hLoop⟩
          | ok value last =>
              obtain ⟨reply, hRest⟩ := ih value between fun callee hCallee =>
                hCalls callee (.of_reaches (.inside hBlock (.here _ _)) hCallee)
              exact ⟨reply, .inside hBlock hLoop hRest⟩

/-! ## Progress -/

/-- Whether a loop goes on after a round. -/
def IsYield : ForInStep σ → Prop
  | .yield _ => True
  | .done _ => False

/-- A round from the cursor has failed, or the loop is done after it, or the loop goes on with
fewer tokens ahead. -/
def Reply.EndsRound (cursor : Cursor) : Reply (ForInStep σ) → Prop
  | .error _ _ => True
  | .ok (.done _) _ => True
  | .ok (.yield _) after => after.left < cursor.left

/-- In every round a token is taken before a loop is called, and before the loop goes on. -/
def Rounds.Progressive (rounds : Rounds Loop State) : Prop :=
  ∀ loop state, (rounds loop state).TakesFirst IsYield

namespace Rounds.Progressive

variable {rounds : Rounds Loop State} (hRounds : rounds.Progressive)
include hRounds

theorem takesFirst_repeated (loop : Loop) (state : State loop) :
    (rounds.repeated loop state).TakesFirst fun _ => False := by
  refine .bind_of (hRounds loop state) fun step hOther => ?_
  cases step with
  | yield next => exact absurd trivial hOther
  | done last => exact Script.takesFirst_pure id

/-- What a round leads to has fewer tokens ahead. -/
theorem left_lt_of_starts {caller callee : Activation Loop State}
    (hStarts : rounds.Starts caller callee) : callee.cursor.left < caller.cursor.left := by
  have hTakes := hRounds.takesFirst_repeated caller.loop caller.state caller.cursor
  cases hStarts with
  | ahead hReaches => exact hTakes _ _ hReaches trivial
  | inBlock hReaches hBlock =>
      exact Nat.lt_trans (left_lt_of_openBlock hBlock) (hTakes _ _ hReaches trivial)

/-- No chain of rounds and calls is endless. -/
theorem wellFounded_starts :
    WellFounded fun callee caller : Activation Loop State => rounds.Starts caller callee :=
  Subrelation.wf (fun hStarts => hRounds.left_lt_of_starts hStarts)
    (measure fun activation : Activation Loop State => activation.cursor.left).wf

/-- Every run comes to an end: the loops that it calls do, by induction on what they lead to. -/
theorem exists_runs (script : Script Loop State α) (cursor : Cursor) :
    ∃ reply, script.Runs rounds cursor reply := by
  refine script.exists_runs_of_calls cursor fun callee hCallee => ?_
  -- Only the rounds matter from here on, not the script that makes the call.
  clear hCallee
  induction callee using hRounds.wellFounded_starts.induction with
  | _ callee ih => exact Script.exists_runs_of_calls _ callee.cursor ih

/-- The runs are those of the parser that goes by the script. -/
theorem runs_iff {answers : (loop : Loop) → State loop → Parser (State loop)}
    (hLoops : ∀ loop state, answers loop state = (rounds.repeated loop state).parser answers)
    (script : Script Loop State α) (cursor : Cursor) (reply : Reply α) :
    script.Runs rounds cursor reply ↔ (script.parser answers).run cursor = reply := by
  constructor
  · exact fun hRuns => hRuns.run_eq hLoops
  · rintro rfl
    obtain ⟨reply, hRuns⟩ := hRounds.exists_runs script cursor
    rwa [hRuns.run_eq hLoops]

/-- Where a loop goes on after a round, fewer tokens are ahead. -/
theorem endsRound_of_runs {loop : Loop} {state : State loop} {cursor : Cursor}
    {reply : Reply (ForInStep (State loop))}
    (hRuns : (rounds loop state).Runs rounds cursor reply) : reply.EndsRound cursor := by
  cases reply with
  | error fault after => trivial
  | ok step after =>
      cases step with
      | done last => trivial
      | yield next => exact hRounds loop state cursor _ after (hRuns.reaches _ after rfl) trivial

end Rounds.Progressive

end ProtoIdl
