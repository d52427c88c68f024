import Mathlib.Data.List.SplitBy
import ProtoIdl.Schema.Basic
import ProtoIdl.Token.Keyword

/-!
# The canonical tokens of a schema

One written form for every tree.  A file gives its revision first, under the comments of
the file, then its package, imports and options, and then its enums, messages, `extend`
blocks and services.  A message gives its nested messages first, then its enums, fields,
`extend` blocks, ranges, reserved entries and options.  A field always has its rule
written out, and neighbouring fields of one group of alternatives share one `oneof`.
-/

namespace ProtoIdl

/-! ## Words of the form -/

/-- A text between double quotes, as one token. -/
def Token.quoted (text : String) : Token :=
  "\"" ++ text ++ "\""

/-- A line comment with the given text. -/
def Token.ofComment (body : String) : Token :=
  "// " ++ body

/-- A comment token for each text. -/
def commentTokens (comments : List String) : List Token :=
  comments.map Token.ofComment

/-- Tokens between braces. -/
def braced (inner : List Token) : List Token :=
  Token.openBrace :: (inner ++ [Token.closeBrace])

/-- Parts with commas between them. -/
def commaSeparated : List (List Token) → List Token
  | [] => []
  | [part] => part
  | part :: rest => part ++ "," :: commaSeparated rest

/-! ## Options -/

mutual

/-- The entries of an option map that give the value to `key`. -/
def OptionValue.entryTokens (key : String) : OptionValue → List Token
  | .bool value => [key, ":", if value then "true" else "false"]
  | .text value => [key, ":", Token.quoted value]
  | .map value => key :: ":" :: braced value.tokens
  | .list blocks => OptionMap.blockTokens key blocks

/-- The entries of an option map, without its braces. -/
def OptionMap.tokens : OptionMap → List Token
  | ⟨entries⟩ => OptionMap.entriesTokens entries

/-- The entries of a list of bindings. -/
def OptionMap.entriesTokens : List (String × OptionValue) → List Token
  | [] => []
  | (key, value) :: rest => value.entryTokens key ++ OptionMap.entriesTokens rest

/-- One block for each map of a list. -/
def OptionMap.blockTokens (key : String) : List OptionMap → List Token
  | [] => []
  | block :: rest => key :: braced block.tokens ++ OptionMap.blockTokens key rest

end

/-- The value of a declared option, which is never a list. -/
def OptionValue.tokens : OptionValue → List Token
  | .bool value => [if value then "true" else "false"]
  | .text value => [Token.quoted value]
  | .map value => braced value.tokens
  | .list _ => []

/-- An option name, an equals sign and a value. -/
def bindingTokens (binding : String × OptionValue) : List Token :=
  binding.1 :: "=" :: binding.2.tokens

/-- An option statement. -/
def optionStatement (binding : String × OptionValue) : List Token :=
  Keyword.option.text :: (bindingTokens binding ++ [";"])

/-- An option statement for each binding. -/
def OptionMap.statements (options : OptionMap) : List Token :=
  options.entries.flatMap optionStatement

/-- A field option list, which is left out if it would be empty. -/
def OptionMap.fieldList (options : OptionMap) : List Token :=
  match options.entries with
  | [] => []
  | entries => "[" :: (commaSeparated (entries.map bindingTokens) ++ ["]"])

/-! ## Fields and enums -/

/-- A type. -/
def FieldType.tokens : FieldType → List Token
  | .scalar name => [name]
  | .named name => [name]
  | .map key value => [Keyword.map.text, "<", key, ",", value, ">"]

namespace Field

/-- The rule of a field; a map field has none. -/
def ruleTokens (field : Field) : List Token :=
  match field.type with
  | .map _ _ => []
  | _ =>
      if field.required then [Keyword.required.text]
      else if field.repeated then [Keyword.repeated.text]
      else [Keyword.optional.text]

/-- A field with its comments. -/
def tokens (field : Field) : List Token :=
  commentTokens field.comments ++ (field.ruleTokens ++ (field.type.tokens ++
    (field.name :: "=" :: (field.tag : Int).repr :: (field.options.fieldList ++ [";"]))))

/-- Whether two fields are written in one `oneof`, or both outside of any. -/
def sameGroup (first second : Field) : Bool :=
  first.oneof == second.oneof

/-- Neighbouring fields of one group, which the first of them names. -/
def runTokens : List Field → List Token
  | [] => []
  | first :: rest =>
      match first.oneof with
      | none => (first :: rest).flatMap tokens
      | some group => Keyword.oneof.text :: group :: braced ((first :: rest).flatMap tokens)

end Field

/-- An `extensions` statement with one range. -/
def ExtensionRange.tokens (range : ExtensionRange) : List Token :=
  [Keyword.extensions.text, (range.first : Int).repr, Keyword.upTo.text, (range.last : Int).repr,
    ";"]

/-- A `reserved` statement with one entry. -/
def Reserved.tokens : Reserved → List Token
  | .range first last =>
      [Keyword.reserved.text, first.repr, Keyword.upTo.text, last.repr, ";"]
  | .name text => [Keyword.reserved.text, Token.quoted text, ";"]

/-- An enum value with its comments. -/
def EnumValue.tokens (value : EnumValue) : List Token :=
  commentTokens value.comments ++
    (value.name :: "=" :: value.number.repr :: (value.options.fieldList ++ [";"]))

/-- The members of an enum. -/
def EnumDecl.bodyTokens (decl : EnumDecl) : List Token :=
  decl.values.flatMap EnumValue.tokens ++
    (decl.reserved.flatMap Reserved.tokens ++ decl.options.statements)

/-- An enum with its comments. -/
def EnumDecl.tokens (decl : EnumDecl) : List Token :=
  commentTokens decl.comments ++ (Keyword.enum.text :: decl.name :: braced decl.bodyTokens)

/-! ## Services -/

/-- A parameter or a result; `stream` marks its side as streaming. -/
def RpcArgument.tokens (stream : Bool) (argument : RpcArgument) : List Token :=
  (if stream then [Keyword.stream.text] else []) ++
    ((if argument.repeated then [Keyword.repeated.text] else []) ++
      (argument.type.tokens ++ argument.name.toList))

namespace RpcMethod

/-- The end of a method: a semicolon, or a body if there are options. -/
def endTokens (method : RpcMethod) : List Token :=
  if method.options.isEmpty then [";"] else braced method.options.statements

/-- A method with its comments. -/
def tokens (method : RpcMethod) : List Token :=
  commentTokens method.comments ++ (Keyword.rpc.text :: method.name :: "(" ::
    (commaSeparated (method.inputs.map (RpcArgument.tokens method.clientStreaming)) ++
      (")" :: Keyword.returns.text :: "(" ::
        (method.output.tokens method.serverStreaming ++ (")" :: method.endTokens)))))

end RpcMethod

/-- A service with its comments. -/
def Service.tokens (service : Service) : List Token :=
  commentTokens service.comments ++ (Keyword.service.text :: service.name ::
    braced (service.methods.flatMap RpcMethod.tokens ++ service.options.statements))

/-! ## Messages -/

/-- The fields of a message, with a `oneof` around each run of one group. -/
def Field.listTokens (fields : List Field) : List Token :=
  (fields.splitBy Field.sameGroup).flatMap Field.runTokens

mutual

/-- The members of a message, without its braces. -/
def Message.bodyTokens : Message → List Token
  | ⟨_, messages, enums, fields, extendBlocks, extensions, reserved, options, _⟩ =>
      Message.levelTokens messages ++ (enums.flatMap EnumDecl.tokens ++
        (Field.listTokens fields ++ (ExtendBlock.levelTokens extendBlocks ++
          (extensions.flatMap ExtensionRange.tokens ++ (reserved.flatMap Reserved.tokens ++
            options.statements)))))

/-- Messages with their comments, in order. -/
def Message.levelTokens : List Message → List Token
  | [] => []
  | message :: rest =>
      commentTokens message.comments ++
        (Keyword.message.text :: message.name :: braced message.bodyTokens) ++
        Message.levelTokens rest

/-- `extend` blocks, in order.  A block has the members of its body. -/
def ExtendBlock.levelTokens : List ExtendBlock → List Token
  | [] => []
  | ⟨target, body⟩ :: rest =>
      (Keyword.extend.text :: target :: braced body.bodyTokens) ++ ExtendBlock.levelTokens rest

end

/-- A message with its comments. -/
def Message.tokens (message : Message) : List Token :=
  commentTokens message.comments ++
    (Keyword.message.text :: message.name :: braced message.bodyTokens)

/-- An `extend` block. -/
def ExtendBlock.tokens (block : ExtendBlock) : List Token :=
  Keyword.extend.text :: block.target :: braced block.body.bodyTokens

theorem Message.levelTokens_eq (messages : List Message) :
    Message.levelTokens messages = messages.flatMap Message.tokens := by
  induction messages with
  | nil => rfl
  | cons message rest ih => rw [levelTokens, List.flatMap_cons, ih, tokens]

theorem ExtendBlock.levelTokens_eq (blocks : List ExtendBlock) :
    ExtendBlock.levelTokens blocks = blocks.flatMap ExtendBlock.tokens := by
  induction blocks with
  | nil => rfl
  | cons block rest ih =>
      cases block
      rw [levelTokens, List.flatMap_cons, ih, tokens]

/-- The members of a message, kind by kind. -/
theorem Message.bodyTokens_eq (message : Message) :
    message.bodyTokens =
      message.messages.flatMap Message.tokens ++ (message.enums.flatMap EnumDecl.tokens ++
        (Field.listTokens message.fields ++ (message.extendBlocks.flatMap ExtendBlock.tokens ++
          (message.extensions.flatMap ExtensionRange.tokens ++
            (message.reserved.flatMap Reserved.tokens ++ message.options.statements))))) := by
  cases message
  rw [bodyTokens, levelTokens_eq, ExtendBlock.levelTokens_eq]

/-! ## Files -/

/-- The number of a language revision, with its name in front. -/
def LanguageVersion.text : LanguageVersion → String
  | proto2 => "proto2"
  | proto3 => "proto3"

/-- A package statement, if there is a package. -/
def packageTokens : Option String → List Token
  | none => []
  | some name => [Keyword.package.text, name, ";"]

/-- The word for an import modifier. -/
def ImportModifier.text : ImportModifier → Token
  | pub => "public"
  | weak => "weak"

/-- An import statement; the path gets back its file extension. -/
def Import.tokens (entry : Import) : List Token :=
  Keyword.importFile.text :: ((entry.modifier.map ImportModifier.text).toList ++
    [Token.quoted (entry.path ++ ".proto"), ";"])

/-- A whole file. -/
def Schema.tokens (schema : Schema) : List Token :=
  commentTokens schema.comments ++ (Keyword.syntaxVersion.text :: "=" ::
    Token.quoted schema.version.text :: ";" :: (packageTokens schema.package ++
      (schema.imports.flatMap Import.tokens ++ (schema.options.statements ++
        (schema.enums.flatMap EnumDecl.tokens ++ (schema.messages.flatMap Message.tokens ++
          (schema.extendBlocks.flatMap ExtendBlock.tokens ++
            schema.services.flatMap Service.tokens)))))))

end ProtoIdl
