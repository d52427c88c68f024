import ProtoIdl.Proofs.Parser.MessageLoop
import ProtoIdl.Proofs.Termination.Loops

/-!
# Courses and parsers of the grammar

A course goes like the parser that it is written after, if every loop that it calls answers what
the grammar reads there (the lemmas `Course.parser_*`).  And each loop of the grammar is one
round of it, and then the loop again unless it is done (`Loop.reads_eq`).  So what is proved about
rounds and calls is about the parsers of the grammar.
-/

namespace ProtoIdl
namespace Grammar

open ProtoIdl.Parser

namespace Course

/-! ## Courses and parsers -/

theorem parser_optionMap : optionMap.parser Loop.reads = Grammar.optionMap := by
  simp [optionMap, Grammar.optionMap, Loop.reads]

theorem parser_valueFrom (name context : String) (first : Token) :
    (valueFrom name context first).parser Loop.reads = Grammar.valueFrom name context first := by
  simp [valueFrom, Grammar.valueFrom, Script.parser_ite, parser_optionMap]

theorem parser_optionBinding (context : String) :
    (optionBinding context).parser Loop.reads = Grammar.optionBinding context := by
  simp [optionBinding, Grammar.optionBinding, optionValue, parser_valueFrom]

theorem parser_bindOptionRest (options : OptionMap) :
    (bindOptionRest options).parser Loop.reads = Grammar.bindOptionRest options := by
  simp [bindOptionRest, Grammar.bindOptionRest, optionRest, parser_optionBinding]

theorem parser_fieldOption (options : OptionMap) :
    (fieldOption options).parser Loop.reads = Grammar.fieldOption options := by
  simp [fieldOption, Grammar.fieldOption, parser_optionBinding]

theorem parser_optionalFieldOptions :
    optionalFieldOptions.parser Loop.reads = Grammar.optionalFieldOptions := by
  simp [optionalFieldOptions, Grammar.optionalFieldOptions, fieldOptions, Script.parser_ite,
    Loop.reads]

theorem parser_addRange (ranges : List ExtensionRange) :
    (addRange ranges).parser Loop.reads =
      extensionRange >>= fun range => pure (ranges ++ [range]) := by
  simp [addRange]

theorem parser_addReserved (max : Int) (reserved : List Reserved) :
    (addReserved max reserved).parser Loop.reads =
      reservedEntry max >>= fun entry => pure (reserved ++ [entry]) := by
  simp [addReserved]

theorem parser_fieldRest (comments : List String) (first : Token) :
    (fieldRest comments first).parser Loop.reads = Grammar.fieldRest comments first := by
  simp [fieldRest, Grammar.fieldRest, parser_optionalFieldOptions]

theorem parser_oneofMember (group : String) (fields : List Field) (head : List String × Token) :
    (oneofMember group fields head).parser Loop.reads = Grammar.oneofMember group fields head := by
  simp only [oneofMember, Grammar.oneofMember, Script.parser_ite]
  split
  · rfl
  · split <;> simp_all [parser_fieldRest]

theorem parser_oneofRest (fields : List Field) :
    (oneofRest fields).parser Loop.reads = Grammar.oneofRest fields := by
  simp [oneofRest, Grammar.oneofRest, Loop.reads]

theorem parser_enumValueRest (comments : List String) (first : Token) :
    (enumValueRest comments first).parser Loop.reads = Grammar.enumValueRest comments first := by
  simp [enumValueRest, Grammar.enumValueRest, enumValueBody, parser_optionalFieldOptions]

theorem parser_enumMember (decl : EnumDecl) (head : List String × Token) :
    (enumMember decl head).parser Loop.reads = Grammar.enumMember decl head := by
  simp only [enumMember, Grammar.enumMember, Script.parser_ite]
  split
  · rfl
  · split <;> simp_all [parser_bindOptionRest, parser_enumValueRest, Loop.reads]

theorem parser_enumRest : enumRest.parser Loop.reads = Grammar.enumRest := by
  simp [enumRest, Grammar.enumRest, Loop.reads]

theorem parser_addParameter (inputs : RpcInputs) :
    (addParameter inputs).parser Loop.reads = rpcParameter inputs :=
  Script.parser_lift _

theorem parser_rpcParameters : rpcParameters.parser Loop.reads = Grammar.rpcParameters := by
  simp [rpcParameters, Grammar.rpcParameters, Script.parser_ite, Loop.reads]

theorem parser_rpcBodyMember (options : OptionMap) (head : List String × Token) :
    (rpcBodyMember options head).parser Loop.reads = Grammar.rpcBodyMember options head := by
  simp only [rpcBodyMember, Grammar.rpcBodyMember, Script.parser_ite]
  split
  · rfl
  · split <;> simp_all [parser_bindOptionRest]

theorem parser_rpcEnd : rpcEnd.parser Loop.reads = Grammar.rpcEnd := by
  simp [rpcEnd, Grammar.rpcEnd, Script.parser_ite, Loop.reads]

theorem parser_rpcRest (comments : List String) :
    (rpcRest comments).parser Loop.reads = Grammar.rpcRest comments := by
  simp [rpcRest, Grammar.rpcRest, parser_rpcParameters, parser_rpcEnd]

theorem parser_serviceMember (service : Service) (head : List String × Token) :
    (serviceMember service head).parser Loop.reads = Grammar.serviceMember service head := by
  simp only [serviceMember, Grammar.serviceMember, Script.parser_ite]
  split
  · rfl
  · split <;> simp_all [parser_bindOptionRest, parser_rpcRest]

theorem parser_serviceRest : serviceRest.parser Loop.reads = Grammar.serviceRest := by
  simp [serviceRest, Grammar.serviceRest, Loop.reads]

theorem parser_block (kind : BlockKind) :
    (block kind).parser Loop.reads = Grammar.block kind fun name => members (.new name) := by
  simp [block, Grammar.block, Loop.reads]

theorem parser_messageMember (message : Message) (head : List String × Token) :
    (messageMember message head).parser Loop.reads = Grammar.messageMember message head := by
  simp only [messageMember, Grammar.messageMember, Script.parser_ite]
  split
  · rfl
  · split <;> simp_all [parser_enumRest, parser_oneofRest, parser_bindOptionRest,
      parser_fieldRest, Loop.reads]

theorem parser_messageStatement (message : Message) (head : List String × Token) :
    (messageStatement message head).parser Loop.reads = Grammar.messageStatement message head := by
  simp only [messageStatement, Grammar.messageStatement]
  split <;> simp_all [parser_messageMember, parser_block]

theorem parser_declaration (schema : Schema) (started : Bool) (comments : List String)
    (keyword : Option Keyword) :
    (declaration schema started comments keyword).parser Loop.reads =
      Grammar.declaration schema started comments keyword := by
  unfold declaration Grammar.declaration
  split <;> simp_all [Script.parser_ite, parser_block, parser_enumRest, parser_bindOptionRest,
    parser_serviceRest, messageRest, extendRest]

theorem parser_statement (state : FileState) (head : List String × Token) :
    (statement state head).parser Loop.reads = Grammar.statement state head := by
  simp [statement, Grammar.statement, Script.parser_ite, parser_declaration]

theorem parser_file (version : LanguageVersion) :
    (file version).parser Loop.reads = Grammar.file version := by
  simp [file, Grammar.file, Loop.reads]

end Course

/-! ## Rounds and loops -/

/-- What a loop does after a round of it. -/
def afterRound (reads : σ → Parser σ) : ForInStep σ → Parser σ
  | .yield next => reads next
  | .done last => pure last

/-- A list of items with heads is read round by round. -/
theorem loop_eq_rounds {head : Head η} {item : σ → η → Parser σ} {course : σ → η → Course σ}
    (hItem : ∀ state found, (course state found).parser Loop.reads = item state found)
    (state : σ) :
    Parser.loop head item state =
      (headedRound head course state).parser Loop.reads >>=
        afterRound (Parser.loop head item) := by
  rw [loop_eq, headedRound, Script.parser_bind, Script.parser_lift, bind_assoc]
  congr 1
  funext found
  cases found with
  | none => rfl
  | some found =>
      simp only [Script.parser_bind, hItem, Script.parser_pure, bind_assoc, pure_bind, afterRound]

/-- A list with commas is read round by round. -/
theorem commaList_eq_rounds {close : Token} {context : String} {item : σ → Parser σ}
    {course : σ → Course σ} (hItem : ∀ state, (course state).parser Loop.reads = item state)
    (state : σ) :
    commaList close context item state =
      (commaRound close context course state).parser Loop.reads >>=
        afterRound (commaList close context item) := by
  -- A list with commas is an item and then a loop over the commas, each with the item after it;
  -- a round has the item first.
  simp only [commaList, commaRound, Script.parser_bind, hItem, Script.parser_lift, bind_assoc]
  congr 1
  funext grown
  rw [loop_eq]
  congr 1
  funext found
  cases found with
  | none => rfl
  | some found => rfl

/-- The entries of an option map are read round by round. -/
theorem entries_eq_rounds (options : OptionMap) :
    entries options = (Course.mapRound options).parser Loop.reads >>= afterRound entries := by
  rw [entries_eq, Course.mapRound, Script.parser_bind, Script.parser_lift, bind_assoc]
  congr 1
  funext entry
  cases entry with
  | close => rfl
  | separator => rfl
  | literal key value => simp [afterRound]
  | nested form key => simp [Course.parser_optionMap, afterRound]

theorem Loop.parser_repeated (loop : Loop) (state : loop.State) :
    (Loop.round.repeated loop state).parser Loop.reads =
      (loop.round state).parser Loop.reads >>= afterRound loop.reads := by
  rw [Rounds.repeated, Script.parser_bind]
  congr 1
  funext step
  cases step with
  | yield next => exact Script.parser_run loop next
  | done last => rfl

/-- Every loop of the grammar goes by its rounds. -/
theorem Loop.reads_eq (loop : Loop) (state : loop.State) :
    loop.reads state = (Loop.round.repeated loop state).parser Loop.reads := by
  rw [Loop.parser_repeated]
  cases loop with
  | statements => exact loop_eq_rounds Course.parser_statement state
  | members =>
      -- The grammar reads bodies by a recursion on the tokens left, and not by a loop.
      simp only [Loop.reads, funext members_eq_loop]
      exact loop_eq_rounds Course.parser_messageStatement state
  | alternatives group => exact loop_eq_rounds (Course.parser_oneofMember group) state
  | ranges => exact commaList_eq_rounds Course.parser_addRange state
  | reservations max => exact commaList_eq_rounds (Course.parser_addReserved max) state
  | values => exact loop_eq_rounds Course.parser_enumMember state
  | methods => exact loop_eq_rounds Course.parser_serviceMember state
  | parameters => exact commaList_eq_rounds Course.parser_addParameter state
  | methodOptions => exact loop_eq_rounds Course.parser_rpcBodyMember state
  | entries => exact entries_eq_rounds state
  | fieldOptions => exact commaList_eq_rounds Course.parser_fieldOption state

end Grammar
end ProtoIdl
