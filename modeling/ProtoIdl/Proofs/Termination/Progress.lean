import ProtoIdl.Proofs.Termination.Grammar

/-!
# Progress of the loops

In every round of a loop of the grammar a token is taken before a loop is called and before the
loop goes on.  A list whose items have heads takes the first token of an item in its head.  A list
with commas takes the comma after the item, and where its items call a loop, for the value of an
option, the equals sign comes before it.  An option map takes the first token of its entry.
Nothing of this depends on the limit on the depth.

So every loop comes to an end from every state and at every cursor (`loops_terminate`).
-/

namespace ProtoIdl
namespace Grammar

open ProtoIdl.Parser ProtoIdl.Script

/-! ## Rounds take a token -/

theorem takesFirst_headedRound (head : Head η) (item : σ → η → Course σ) (state : σ) :
    (headedRound head item state).TakesFirst IsYield := by
  refine .bind_of (takesFirst_lift head.progress) fun found hOther => ?_
  cases found with
  | none => exact takesFirst_pure id
  | some found => exact absurd rfl hOther

/-- The comma comes last in its round, so the item must not call a loop at the very beginning. -/
theorem takesFirst_commaRound {item : σ → Course σ}
    (hItem : ∀ state, (item state).TakesFirst fun _ => False) (close : Token) (context : String)
    (state : σ) : (commaRound close context item state).TakesFirst IsYield := by
  refine .bind_of (hItem state) fun grown _ => ?_
  exact .bind (takesFirst_lift (.bind_left (next_consumes _ _)))

theorem takesFirst_addRange (ranges : List ExtensionRange) :
    (Course.addRange ranges).TakesFirst fun _ => False :=
  .after_step fun _ => takesFirst_pure id

theorem takesFirst_addReserved (max : Int) (reserved : List Reserved) :
    (Course.addReserved max reserved).TakesFirst fun _ => False :=
  .after_step fun _ => takesFirst_pure id

theorem takesFirst_addParameter (inputs : RpcInputs) :
    (Course.addParameter inputs).TakesFirst fun _ => False :=
  takesFirst_lift_never _

/-- The value of an option may be an option map, and the equals sign comes before it. -/
theorem takesFirst_fieldOption (options : OptionMap) :
    (Course.fieldOption options).TakesFirst fun _ => False := by
  have hBinding : (Course.optionBinding "field options").TakesFirst fun _ => True :=
    .after_step fun name => .bind (takesFirst_lift (.bind_left (next_consumes _ _)))
  exact .after_step fun _ => .bind hBinding

/-- The rounds of the grammar progress. -/
theorem Loop.progressive_round : Rounds.Progressive Loop.round := by
  intro loop state
  cases loop with
  | statements => exact takesFirst_headedRound _ _ state
  | members => exact takesFirst_headedRound _ _ state
  | alternatives group => exact takesFirst_headedRound _ _ state
  | ranges => exact takesFirst_commaRound takesFirst_addRange _ _ state
  | reservations max => exact takesFirst_commaRound (takesFirst_addReserved max) _ _ state
  | values => exact takesFirst_headedRound _ _ state
  | methods => exact takesFirst_headedRound _ _ state
  | parameters => exact takesFirst_commaRound takesFirst_addParameter _ _ state
  | methodOptions => exact takesFirst_headedRound _ _ state
  | entries => exact .bind (takesFirst_lift (mapEntry_consumes state))
  | fieldOptions => exact takesFirst_commaRound takesFirst_fieldOption _ _ state

/-! ## Termination -/

/-- The loops of the grammar terminate without a bound on their rounds, from every state and at
every cursor, whatever the tokens ahead, the level and the limit on the depth are.

Every round comes to an end: it fails, or the loop is done, or the loop goes on with fewer tokens
ahead.  A block whose inside is read by a loop of its own is shorter than what was ahead of the
cursor around it.  What a round leads to, be it the next round of the loop or a loop that is called
on the way, has fewer tokens ahead; so no chain of rounds and calls is endless.  The runs of a loop
that come to an end are then those that its parser answers, and so are the runs of a whole file:
there is one from every cursor, and only one. -/
theorem loops_terminate :
    (∀ (loop : Loop) (state : loop.State) (cursor : Cursor),
      (∃ reply, (loop.round state).Runs Loop.round cursor reply) ∧
      (∀ reply, (loop.round state).Runs Loop.round cursor reply → reply.EndsRound cursor) ∧
      (∀ context inner start rest around block after,
        (loop.round state).Reaches cursor (.inside context inner start rest) around →
          (openBlock context).run around = .ok block after →
            block.left < around.left ∧ around.left < cursor.left) ∧
      (∀ callee, Loop.round.Starts ⟨loop, state, cursor⟩ callee →
        callee.cursor.left < cursor.left) ∧
      ∀ reply, (Loop.round.repeated loop state).Runs Loop.round cursor reply ↔
        (loop.reads state).run cursor = reply) ∧
    (WellFounded fun callee caller => Loop.round.Starts caller callee) ∧
    ∀ version tokens limit reply,
      (Course.file version).Runs Loop.round (.ofTokens tokens limit) reply ↔
        (file version).run (.ofTokens tokens limit) = reply := by
  have hProgress := Loop.progressive_round
  refine ⟨fun loop state cursor => ⟨?_, ?_, ?_, ?_, ?_⟩, hProgress.wellFounded_starts, ?_⟩
  · exact hProgress.exists_runs _ cursor
  · exact fun reply hRuns => hProgress.endsRound_of_runs hRuns
  · intro context inner start rest around block after hReaches hBlock
    exact ⟨left_lt_of_openBlock hBlock, hProgress loop state cursor _ around hReaches trivial⟩
  · exact fun callee hStarts => hProgress.left_lt_of_starts hStarts
  · intro reply
    rw [Loop.reads_eq]
    exact hProgress.runs_iff Loop.reads_eq _ cursor reply
  · intro version tokens limit reply
    rw [← Course.parser_file]
    exact hProgress.runs_iff Loop.reads_eq _ _ reply

/-- A round over the members of a message opens the block of a nested message. -/
theorem loops_terminate_nested :
    ∃ inner rest around block after,
      (Loop.round .members (.new "Book")).Reaches
          (.ofTokens ["message", "Page", Token.openBrace, ";", Token.closeBrace] 1)
          (.inside "message" .members inner rest) around ∧
        (openBlock "message").run around = .ok block after ∧
          block.rest = [";"] ∧ block.left < around.left ∧ around.left < 5 := by
  have hHead : statementHead.toParser.run
      (.ofTokens ["message", "Page", Token.openBrace, ";", Token.closeBrace] 1) =
        .ok (some ([], "message"))
          ⟨0, ["message"], ["Page", Token.openBrace, ";", Token.closeBrace], 0, 1⟩ := rfl
  have hName : (word "message name" "message").run
      ⟨0, ["message"], ["Page", Token.openBrace, ";", Token.closeBrace], 0, 1⟩ =
        .ok "Page" ⟨0, ["Page", "message"], [Token.openBrace, ";", Token.closeBrace], 0, 1⟩ := rfl
  have hBrace : (expect Token.openBrace "message").run
      ⟨0, ["Page", "message"], [Token.openBrace, ";", Token.closeBrace], 0, 1⟩ =
        .ok () ⟨0, [Token.openBrace, "Page", "message"], [";", Token.closeBrace], 0, 1⟩ := rfl
  have hReaches : ∃ rest, (Loop.round .members (.new "Book")).Reaches
      (.ofTokens ["message", "Page", Token.openBrace, ";", Token.closeBrace] 1)
      (.inside "message" .members (.new "Page") rest)
      ⟨0, [Token.openBrace, "Page", "message"], [";", Token.closeBrace], 0, 1⟩ :=
    ⟨_, .step hHead (.step hName (.step hBrace (.here _ _)))⟩
  obtain ⟨rest, hReaches⟩ := hReaches
  have hBlock : (openBlock "message").run
      ⟨0, [Token.openBrace, "Page", "message"], [";", Token.closeBrace], 0, 1⟩ =
        .ok ⟨3, [], [";"], 1, 1⟩
          ⟨0, [Token.closeBrace, ";", Token.openBrace, "Page", "message"], [], 0, 1⟩ := rfl
  obtain ⟨-, -, hBlocks, -⟩ := loops_terminate.1 .members (.new "Book")
    (.ofTokens ["message", "Page", Token.openBrace, ";", Token.closeBrace] 1)
  obtain ⟨hShorter, hAhead⟩ := hBlocks _ _ _ rest _ _ _ hReaches hBlock
  exact ⟨_, rest, _, _, _, hReaches, hBlock, rfl, hShorter, hAhead⟩

end Grammar
end ProtoIdl
