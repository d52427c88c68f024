import ProtoIdl.Grammar.File
import ProtoIdl.Proofs.Termination.Rounds

/-!
# The loops of the grammar

The grammar repeats itself in eleven loops, and nowhere else.  Two of them contain themselves:
a member of a body may be a block with a body of its own, and an entry of an option map may be
an option map.  The others call each other in one direction only.

`Loop.round` is one round of each loop.  Like the courses that it is made of, it is the text of
the grammar again, except that no loop is run in it: where the grammar reads a list, a course
calls its loop.  `Loop.reads` is the parser of the grammar that each loop belongs to.
-/

namespace ProtoIdl
namespace Grammar

open ProtoIdl.Parser

/-- The loops of the grammar. -/
inductive Loop where
  /-- The statements of a file. -/
  | statements
  /-- The members of a body, of a message or of an `extend` block. -/
  | members
  /-- The fields of a `oneof` group. -/
  | alternatives (group : String)
  /-- The ranges of an `extensions` statement. -/
  | ranges
  /-- The entries of a `reserved` statement, with the largest number of its scope. -/
  | reservations (max : Int)
  /-- The members of an enum. -/
  | values
  /-- The members of a service. -/
  | methods
  /-- The parameters of a method. -/
  | parameters
  /-- The members of the body of a method. -/
  | methodOptions
  /-- The entries of an option map. -/
  | entries
  /-- The items of a field option list. -/
  | fieldOptions

/-- What a loop has read so far. -/
abbrev Loop.State : Loop → Type
  | statements => FileState
  | members => Message
  | alternatives _ => List Field
  | ranges => List ExtensionRange
  | reservations _ => List Reserved
  | values => EnumDecl
  | methods => Service
  | parameters => RpcInputs
  | methodOptions => OptionMap
  | entries => OptionMap
  | fieldOptions => OptionMap

/-- The course of a parser of the grammar. -/
abbrev Course (α : Type) : Type 1 :=
  Script Loop Loop.State α

/-- The course that calls a loop. -/
abbrev Course.run (loop : Loop) (state : loop.State) : Course loop.State :=
  Script.run loop state

/-! ## Rounds of lists -/

/-- One round of a list whose items have heads: the head, and then the item. -/
def headedRound (head : Head η) (item : σ → η → Course σ) (state : σ) : Course (ForInStep σ) := do
  match ← head.toParser with
  | none => return .done state
  | some found =>
      let grown ← item state found
      return .yield grown

/-- One round of a list with commas: the item, and then the comma or the end. -/
def commaRound (close : Token) (context : String) (item : σ → Course σ) (state : σ) :
    Course (ForInStep σ) := do
  let grown ← item state
  match ← (commaHead close context).toParser with
  | none => return .done grown
  | some _ => return .yield grown

namespace Course

/-! ## Options -/

/-- The course of an option map after its opening brace. -/
def optionMap : Course OptionMap := do
  enter
  let options ← run .entries ∅
  leave
  return options

/-- The course of the value of an option after its first token. -/
def valueFrom (name context : String) (first : Token) : Course OptionValue := do
  -- Here a field option or an option statement comes to a loop.
  let value ←
    if first = Token.openBrace then OptionValue.map <$> optionMap
    else if first.isPunctuation then rejectLast context
    else pure (.ofLiteral first)
  if admitsValue name value then return value
  else fail (.invalidOptimizeFor first)

/-- The course of an option name, an equals sign and a value. -/
def optionBinding (context : String) : Course (String × OptionValue) := do
  let name ← optionName context
  expect "=" context
  let first ← next "option value" context
  let value ← valueFrom name context first
  return (name, value)

/-- The course of an option statement after its keyword. -/
def bindOptionRest (options : OptionMap) : Course OptionMap := do
  let binding ← optionBinding "option"
  expect ";" "option"
  ofExcept (options.bind binding.1 binding.2)

/-- The course of an item of a field option list. -/
def fieldOption (options : OptionMap) : Course OptionMap := do
  let _ ← takeComments
  let binding ← optionBinding "field options"
  let grown ← ofExcept (options.bind binding.1 binding.2)
  let _ ← takeComments
  return grown

/-- The course of a field option list that may be absent. -/
def optionalFieldOptions : Course OptionMap := do
  if (← peek) = some "[" then
    expect "[" "field options"
    run .fieldOptions ∅
  else return ∅

/-- The course of an entry of an option map. -/
def mapRound (options : OptionMap) : Course (ForInStep OptionMap) := do
  match ← mapEntry options with
  | .close => return .done options
  | .separator => return .yield options
  | .literal key value =>
      let grown ← ofExcept (options.bind key value)
      return .yield grown
  | .nested form key =>
      -- The loop over entries calls itself, on the same tokens and one level down.
      let inner ← optionMap
      let grown ← ofExcept (form.store options key inner)
      return .yield grown

/-! ## Ranges -/

/-- The course of an item of an `extensions` statement. -/
def addRange (ranges : List ExtensionRange) : Course (List ExtensionRange) := do
  let range ← extensionRange
  return ranges ++ [range]

/-- The course of an item of a `reserved` statement. -/
def addReserved (max : Int) (reserved : List Reserved) : Course (List Reserved) := do
  let entry ← reservedEntry max
  return reserved ++ [entry]

/-! ## Fields and enums -/

/-- The course of a field after its comments and its first token. -/
def fieldRest (comments : List String) (first : Token) : Course Field := do
  let head ← fieldHead comments first
  let name ← fieldWord (.name head.type.name)
  expect "=" "message field"
  let literal ← next "field number" "message field"
  let tag ← numeral Numeral.fieldNumbers literal "field number"
  let options ← optionalFieldOptions
  expect ";" "message field"
  return ⟨name, head.type, tag.toNat, head.required, head.repeated, none, options,
    head.comments⟩

/-- The course of a member of a group after its comments and its first token. -/
def oneofMember (group : String) (fields : List Field) (head : List String × Token) :
    Course (List Field) :=
  if head.2 = ";" then pure fields
  else
    match Keyword.ofToken? head.2 with
    | some .repeated | some .required | some .map | some .option => rejectLast "oneof"
    | _ => do
        let field ← fieldRest head.1 head.2
        return fields ++ [{ field with oneof := some group }]

/-- The course of a `oneof` group after its keyword. -/
def oneofRest (fields : List Field) : Course (List Field) := do
  let group ← word "oneof name" "oneof"
  expect Token.openBrace "oneof"
  run (.alternatives group) fields

/-- The course of an enum value after its comments and its first token. -/
def enumValueRest (comments : List String) (first : Token) : Course EnumValue := do
  enumValueShape
  let name ← checkWord first "enum value"
  expect "=" "enum value"
  let literal ← next "enum number" "enum value"
  let number ← numeral Numeral.enumNumbers literal "enum value"
  let options ← optionalFieldOptions
  expect ";" "enum value"
  return ⟨name, number, options, comments⟩

/-- The course of a member of an enum after its comments and its first token. -/
def enumMember (decl : EnumDecl) (head : List String × Token) : Course EnumDecl :=
  if head.2 = ";" then pure decl
  else
    match Keyword.ofToken? head.2 with
    | some .option => do
        let options ← bindOptionRest decl.options
        return { decl with options := options }
    | some .reserved => do
        let reserved ← run (.reservations maxEnumNumber) decl.reserved
        return { decl with reserved := reserved }
    | _ => do
        let value ← enumValueRest head.1 head.2
        ofExcept (addEnumValue decl value)

/-- The course of an enum after its keyword. -/
def enumRest : Course EnumDecl := do
  let name ← word "enum name" "enum"
  expect Token.openBrace "enum"
  let decl ← run .values (.new name)
  let _ ← eat ";"
  return decl

/-! ## Services -/

/-- The course of a parameter. -/
def addParameter (inputs : RpcInputs) : Course RpcInputs :=
  rpcParameter inputs

/-- The course of the parameters of a method after the opening parenthesis. -/
def rpcParameters : Course RpcInputs := do
  let _ ← takeComments
  if ← eat ")" then return ⟨false, []⟩
  else run .parameters ⟨false, []⟩

/-- The course of a member of the body of a method after its first token. -/
def rpcBodyMember (options : OptionMap) (head : List String × Token) : Course OptionMap :=
  if head.2 = ";" then pure options
  else
    match Keyword.ofToken? head.2 with
    | some .option => bindOptionRest options
    | _ => rejectLast "rpc options"

/-- The course of the end of a method. -/
def rpcEnd : Course OptionMap := do
  if ← eat ";" then return ∅
  else
    expect Token.openBrace "rpc"
    let options ← run .methodOptions ∅
    let _ ← eat ";"
    return options

/-- The course of a method after its keyword. -/
def rpcRest (comments : List String) : Course RpcMethod := do
  let name ← word "method name" "rpc"
  expect "(" "rpc"
  let inputs ← rpcParameters
  expect Keyword.returns.text "rpc"
  expect "(" "rpc"
  let stream ← eat Keyword.stream.text
  let (type, repeated) ← rpcType "rpc"
  expect ")" "rpc"
  let options ← rpcEnd
  return ⟨name, inputs.arguments, ⟨none, type, repeated⟩, inputs.streaming, stream, options,
    comments⟩

/-- The course of a member of a service after its comments and its first token. -/
def serviceMember (service : Service) (head : List String × Token) : Course Service :=
  if head.2 = ";" then pure service
  else
    match Keyword.ofToken? head.2 with
    | some .option => do
        let options ← bindOptionRest service.options
        return { service with options := options }
    | some .function | some .rpc => do
        let method ← rpcRest head.1
        return { service with methods := service.methods ++ [method] }
    | _ => rejectLast "service"

/-- The course of a service after its keyword. -/
def serviceRest : Course Service := do
  let name ← word "service name" "service"
  expect Token.openBrace "service"
  let service ← run .methods (.new name)
  let _ ← eat ";"
  return service

/-! ## Messages -/

/-- The course of a block after its keyword.  Its body is read by the loop over members, on the
tokens inside of the block alone. -/
def block (kind : BlockKind) : Course (String × Message) := do
  let name ← word kind.nameNoun kind.noun
  expect Token.openBrace "message"
  let inner ← Script.runInside "message" .members (Message.new name)
  return (name, inner)

/-- The course of a member of a message other than a block, after its comments and its first
token. -/
def messageMember (message : Message) (head : List String × Token) : Course Message :=
  if head.2 = ";" then pure message
  else
    match Keyword.ofToken? head.2 with
    | some .enum => do
        let decl ← enumRest
        return { message with enums := message.enums ++ [{ decl with comments := head.1 }] }
    | some .extensions => do
        let ranges ← run .ranges message.extensions
        return { message with extensions := ranges }
    | some .reserved => do
        let reserved ← run (.reservations maxFieldNumber) message.reserved
        return { message with reserved := reserved }
    | some .oneof => do
        let fields ← oneofRest message.fields
        return { message with fields := fields }
    | some .option => do
        let options ← bindOptionRest message.options
        return { message with options := options }
    | _ => do
        let field ← fieldRest head.1 head.2
        return { message with fields := message.fields ++ [field] }

/-- The course of a member of a message after its comments and its first token. -/
def messageStatement (message : Message) (head : List String × Token) : Course Message :=
  match BlockKind.ofToken? head.2 with
  | none => messageMember message head
  | some kind => do
      let named ← block kind
      return addBlock message kind head.1 named.1 named.2

/-! ## Files -/

/-- The course of a statement of a file after its keyword. -/
def declaration (schema : Schema) (started : Bool) (comments : List String) :
    Option Keyword → Course Schema
  | some .package => do
      let name ← packageRest
      return { schema with package := some name }
  | some .syntaxVersion =>
      if started then fail .versionNotFirst
      else do
        let version ← versionRest
        return { schema with version := version }
  | some .message => do
      let named ← block .message
      return { schema with
        messages := schema.messages ++ [{ named.2 with comments := comments }] }
  | some .enum => do
      let decl ← enumRest
      return { schema with enums := schema.enums ++ [{ decl with comments := comments }] }
  | some .option => do
      let options ← bindOptionRest schema.options
      return { schema with options := options }
  | some .importFile => do
      let entry ← importRest
      return { schema with imports := schema.imports ++ [entry] }
  | some .extend => do
      let named ← block .extend
      return { schema with extendBlocks := schema.extendBlocks ++ [⟨named.1, named.2⟩] }
  | some .service => do
      let decl ← serviceRest
      return { schema with
        services := schema.services ++ [{ decl with comments := comments }] }
  | _ => rejectLast "file"

/-- The course of a statement of a file after its comments and its first token. -/
def statement (state : FileState) (head : List String × Token) : Course FileState :=
  if head.2 = ";" then pure state
  else do
    let schema :=
      if state.started then state.schema else { state.schema with comments := head.1 }
    let grown ← declaration schema state.started head.1 (Keyword.ofToken? head.2)
    return ⟨grown, true⟩

/-- The course of a whole file. -/
def file (version : LanguageVersion) : Course Schema := do
  let state ← run .statements ⟨.new version, false⟩
  return state.schema

end Course

/-! ## Rounds and parsers -/

/-- One round of each loop. -/
def Loop.round : Rounds Loop Loop.State
  | .statements => headedRound statementHead Course.statement
  | .members => headedRound statementHead Course.messageStatement
  | .alternatives group => headedRound (memberHead "oneof") (Course.oneofMember group)
  | .ranges => commaRound ";" "extensions" Course.addRange
  | .reservations max => commaRound ";" "reserved" (Course.addReserved max)
  | .values => headedRound (memberHead "enum") Course.enumMember
  | .methods => headedRound (memberHead "service") Course.serviceMember
  | .parameters => commaRound ")" "rpc parameters" Course.addParameter
  | .methodOptions => headedRound (memberHead "rpc") Course.rpcBodyMember
  | .entries => Course.mapRound
  | .fieldOptions => commaRound "]" "field options" Course.fieldOption

/-- The parser of the grammar that is a loop. -/
def Loop.reads : (loop : Loop) → loop.State → Parser loop.State
  | .statements => Parser.loop statementHead Grammar.statement
  | .members => Grammar.members
  | .alternatives group => Parser.loop (memberHead "oneof") (Grammar.oneofMember group)
  | .ranges => extensionsRest
  | .reservations max => reservedRest max
  | .values => Parser.loop (memberHead "enum") Grammar.enumMember
  | .methods => Parser.loop (memberHead "service") Grammar.serviceMember
  | .parameters => commaList ")" "rpc parameters" rpcParameter
  | .methodOptions => Parser.loop (memberHead "rpc") Grammar.rpcBodyMember
  | .entries => Grammar.entries
  | .fieldOptions => commaList "]" "field options" Grammar.fieldOption

end Grammar
end ProtoIdl
