import Mathlib.Algebra.Group.Int.Defs
import Mathlib.Algebra.Group.Nat.Defs
import ProtoIdl.Grammar.File

/-!
# Trees that have a written form

The canonical tokens of a tree read back to it when the tree is printable.  Names and
types must be able to stand as words, numbers must fit their slots, and a text must keep
its ends when quotes are taken off them.  The other conditions are those of the tree
itself: names that may be given once occur once, a rule does not contradict a group, and
an `extend` block is named as its body is.  All of this can be decided.
-/

namespace ProtoIdl

/-- A text that can stand as a name: neither punctuation nor a comment. -/
def IsWord (text : String) : Prop :=
  Token.isWordLike text = true

instance (text : String) : Decidable (IsWord text) :=
  inferInstanceAs (Decidable (_ = _))

/-- Comment texts without a plus sign, which would be read as a space. -/
def PrintableComments (comments : List String) : Prop :=
  ∀ body ∈ comments, '+' ∉ body.toList

instance (comments : List String) : Decidable (PrintableComments comments) :=
  inferInstanceAs (Decidable (∀ body ∈ comments, '+' ∉ body.toList))

/-! ## Options -/

mutual

/-- A value that can be written: texts have no quotes at their ends, and lists are not
empty. -/
def OptionValue.Printable : OptionValue → Prop
  | .bool _ => True
  | .text value => Token.unquote value = value
  | .map value => value.Printable
  | .list blocks => blocks ≠ [] ∧ OptionMap.BlocksPrintable blocks

/-- A map that can be written: its keys are words and no two of them are the same. -/
def OptionMap.Printable : OptionMap → Prop
  | ⟨entries⟩ => (entries.map Prod.fst).Nodup ∧ OptionMap.EntriesPrintable entries

/-- Bindings that can be written. -/
def OptionMap.EntriesPrintable : List (String × OptionValue) → Prop
  | [] => True
  | (key, value) :: rest =>
      IsWord key ∧ value.Printable ∧ OptionMap.EntriesPrintable rest

/-- Blocks that can be written. -/
def OptionMap.BlocksPrintable : List OptionMap → Prop
  | [] => True
  | block :: rest => block.Printable ∧ OptionMap.BlocksPrintable rest

end

mutual

/-- Decide whether a value can be written. -/
def OptionValue.decidePrintable : (value : OptionValue) → Decidable value.Printable
  | .bool _ => isTrue trivial
  | .text value => inferInstanceAs (Decidable (Token.unquote value = value))
  | .map value => value.decidePrintable
  | .list blocks =>
      have := OptionMap.decideBlocks blocks
      inferInstanceAs (Decidable (blocks ≠ [] ∧ OptionMap.BlocksPrintable blocks))

/-- Decide whether a map can be written. -/
def OptionMap.decidePrintable : (map : OptionMap) → Decidable map.Printable
  | ⟨entries⟩ =>
      have := OptionMap.decideEntries entries
      inferInstanceAs
        (Decidable ((entries.map Prod.fst).Nodup ∧ OptionMap.EntriesPrintable entries))

/-- Decide whether bindings can be written. -/
def OptionMap.decideEntries : (entries : List (String × OptionValue)) →
    Decidable (OptionMap.EntriesPrintable entries)
  | [] => isTrue trivial
  | (key, value) :: rest =>
      have := value.decidePrintable
      have := OptionMap.decideEntries rest
      inferInstanceAs
        (Decidable (IsWord key ∧ value.Printable ∧ OptionMap.EntriesPrintable rest))

/-- Decide whether blocks can be written. -/
def OptionMap.decideBlocks : (blocks : List OptionMap) →
    Decidable (OptionMap.BlocksPrintable blocks)
  | [] => isTrue trivial
  | block :: rest =>
      have := block.decidePrintable
      have := OptionMap.decideBlocks rest
      inferInstanceAs (Decidable (block.Printable ∧ OptionMap.BlocksPrintable rest))

end

instance (value : OptionValue) : Decidable value.Printable :=
  value.decidePrintable

/-- The options of a declaration.  They are bound one by one, so there are no lists among
their values. -/
structure OptionMap.Declared (options : OptionMap) : Prop where
  nodup : options.keys.Nodup
  word : ∀ binding ∈ options.entries, IsWord binding.1
  printable : ∀ binding ∈ options.entries, binding.2.Printable
  single : ∀ binding ∈ options.entries, binding.2.asList? = none
  admitted : ∀ binding ∈ options.entries, Grammar.admitsValue binding.1 binding.2 = true

instance (options : OptionMap) : Decidable options.Declared :=
  decidable_of_iff
    (options.keys.Nodup ∧ (∀ binding ∈ options.entries, IsWord binding.1) ∧
      (∀ binding ∈ options.entries, binding.2.Printable) ∧
      (∀ binding ∈ options.entries, binding.2.asList? = none) ∧
      ∀ binding ∈ options.entries, Grammar.admitsValue binding.1 binding.2 = true)
    ⟨fun ⟨hNodup, hWord, hPrintable, hSingle, hAdmitted⟩ =>
        ⟨hNodup, hWord, hPrintable, hSingle, hAdmitted⟩,
      fun ⟨hNodup, hWord, hPrintable, hSingle, hAdmitted⟩ =>
        ⟨hNodup, hWord, hPrintable, hSingle, hAdmitted⟩⟩

/-! ## Fields and enums -/

/-- A type that can be written: a built-in name stands for the built-in type, and any
other word for a message or an enum. -/
def FieldType.Printable : FieldType → Prop
  | .scalar name => name ∈ scalarNames
  | .named name => IsWord name ∧ name ∉ scalarNames
  | .map key value => IsWord key ∧ IsWord value

instance : (type : FieldType) → Decidable type.Printable
  | .scalar name => inferInstanceAs (Decidable (name ∈ FieldType.scalarNames))
  | .named name => inferInstanceAs (Decidable (IsWord name ∧ name ∉ FieldType.scalarNames))
  | .map key value => inferInstanceAs (Decidable (IsWord key ∧ IsWord value))

/-- A field that can be written.  Maps and members of a group have no rule, and maps
belong to no group. -/
structure Field.Printable (field : Field) : Prop where
  name : IsWord field.name
  type : field.type.Printable
  tag : field.tag < 2 ^ 32
  rule : ¬(field.required = true ∧ field.repeated = true)
  map : field.mapType?.isSome → field.required = false ∧ field.repeated = false ∧
    field.oneof = none
  group : ∀ group, field.oneof = some group →
    IsWord group ∧ field.required = false ∧ field.repeated = false
  options : field.options.Declared
  comments : PrintableComments field.comments

instance (field : Field) : Decidable field.Printable :=
  decidable_of_iff
    (IsWord field.name ∧ field.type.Printable ∧ field.tag < 2 ^ 32 ∧
      ¬(field.required = true ∧ field.repeated = true) ∧
      (field.mapType?.isSome → field.required = false ∧ field.repeated = false ∧
        field.oneof = none) ∧
      (∀ group, field.oneof = some group →
        IsWord group ∧ field.required = false ∧ field.repeated = false) ∧
      field.options.Declared ∧ PrintableComments field.comments)
    ⟨fun ⟨hName, hType, hTag, hRule, hMap, hGroup, hOptions, hComments⟩ =>
        ⟨hName, hType, hTag, hRule, hMap, hGroup, hOptions, hComments⟩,
      fun ⟨hName, hType, hTag, hRule, hMap, hGroup, hOptions, hComments⟩ =>
        ⟨hName, hType, hTag, hRule, hMap, hGroup, hOptions, hComments⟩⟩

/-- A range of field numbers whose ends fit their slots. -/
def ExtensionRange.Printable (range : ExtensionRange) : Prop :=
  range.first < 2 ^ 32 ∧ range.last < 2 ^ 32

instance (range : ExtensionRange) : Decidable range.Printable :=
  inferInstanceAs (Decidable (_ ∧ _))

/-- A reserved entry that can be written. -/
def Reserved.Printable : Reserved → Prop
  | .range first last => first.natAbs < 2 ^ 63 ∧ last.natAbs < 2 ^ 63
  | .name text => Token.unquote text = text

instance : (entry : Reserved) → Decidable entry.Printable
  | .range _ _ => inferInstanceAs (Decidable (_ ∧ _))
  | .name _ => inferInstanceAs (Decidable (_ = _))

/-- An enum value that can be written.  The words that start the other members of an enum
cannot name a value. -/
structure EnumValue.Printable (value : EnumValue) : Prop where
  name : IsWord value.name
  not_option : value.name ≠ Keyword.option.text
  not_reserved : value.name ≠ Keyword.reserved.text
  number : -2 ^ 31 ≤ value.number ∧ value.number < 2 ^ 31
  options : value.options.Declared
  comments : PrintableComments value.comments

instance (value : EnumValue) : Decidable value.Printable :=
  decidable_of_iff
    (IsWord value.name ∧ value.name ≠ Keyword.option.text ∧
      value.name ≠ Keyword.reserved.text ∧
      (-2 ^ 31 ≤ value.number ∧ value.number < 2 ^ 31) ∧
      value.options.Declared ∧ PrintableComments value.comments)
    ⟨fun ⟨hName, hOption, hReserved, hNumber, hOptions, hComments⟩ =>
        ⟨hName, hOption, hReserved, hNumber, hOptions, hComments⟩,
      fun ⟨hName, hOption, hReserved, hNumber, hOptions, hComments⟩ =>
        ⟨hName, hOption, hReserved, hNumber, hOptions, hComments⟩⟩

/-- An enum that can be written. -/
structure EnumDecl.Printable (decl : EnumDecl) : Prop where
  name : IsWord decl.name
  values : ∀ value ∈ decl.values, value.Printable
  nodup : (decl.values.map EnumValue.name).Nodup
  reserved : ∀ entry ∈ decl.reserved, entry.Printable
  options : decl.options.Declared
  comments : PrintableComments decl.comments

instance (decl : EnumDecl) : Decidable decl.Printable :=
  decidable_of_iff
    (IsWord decl.name ∧ (∀ value ∈ decl.values, value.Printable) ∧
      (decl.values.map EnumValue.name).Nodup ∧ (∀ entry ∈ decl.reserved, entry.Printable) ∧
      decl.options.Declared ∧ PrintableComments decl.comments)
    ⟨fun ⟨hName, hValues, hNodup, hReserved, hOptions, hComments⟩ =>
        ⟨hName, hValues, hNodup, hReserved, hOptions, hComments⟩,
      fun ⟨hName, hValues, hNodup, hReserved, hOptions, hComments⟩ =>
        ⟨hName, hValues, hNodup, hReserved, hOptions, hComments⟩⟩

/-! ## Services -/

/-- The first word of an argument announces no other shape: a lone name is not one of the
words `map`, `repeated` and `stream`, and a map is not repeated. -/
def FieldType.ShapePrintable (stream repeated : Bool) : FieldType → Prop
  | .scalar _ => True
  | .named name =>
      repeated = false → name ≠ Keyword.map.text ∧ name ≠ Keyword.repeated.text ∧
        (stream = false → name ≠ Keyword.stream.text)
  | .map _ _ => repeated = false

instance (stream repeated : Bool) :
    (type : FieldType) → Decidable (type.ShapePrintable stream repeated)
  | .scalar _ => isTrue trivial
  | .named _ => inferInstanceAs (Decidable (_ → _))
  | .map _ _ => inferInstanceAs (Decidable (_ = _))

/-- A parameter or a result that can be written. -/
structure RpcArgument.Printable (stream : Bool) (argument : RpcArgument) : Prop where
  type : argument.type.Printable
  shape : argument.type.ShapePrintable stream argument.repeated
  name : ∀ name, argument.name = some name → IsWord name

instance (stream : Bool) (argument : RpcArgument) : Decidable (argument.Printable stream) :=
  decidable_of_iff
    (argument.type.Printable ∧ argument.type.ShapePrintable stream argument.repeated ∧
      ∀ name, argument.name = some name → IsWord name)
    ⟨fun ⟨hType, hShape, hName⟩ => ⟨hType, hShape, hName⟩,
      fun ⟨hType, hShape, hName⟩ => ⟨hType, hShape, hName⟩⟩

/-- A method that can be written. -/
structure RpcMethod.Printable (method : RpcMethod) : Prop where
  name : IsWord method.name
  inputs : ∀ argument ∈ method.inputs, argument.Printable method.clientStreaming
  streaming : method.clientStreaming = true → method.inputs ≠ []
  output : method.output.Printable method.serverStreaming
  unnamed : method.output.name = none
  options : method.options.Declared
  comments : PrintableComments method.comments

instance (method : RpcMethod) : Decidable method.Printable :=
  decidable_of_iff
    (IsWord method.name ∧
      (∀ argument ∈ method.inputs, argument.Printable method.clientStreaming) ∧
      (method.clientStreaming = true → method.inputs ≠ []) ∧
      method.output.Printable method.serverStreaming ∧ method.output.name = none ∧
      method.options.Declared ∧ PrintableComments method.comments)
    ⟨fun ⟨hName, hInputs, hStreaming, hOutput, hUnnamed, hOptions, hComments⟩ =>
        ⟨hName, hInputs, hStreaming, hOutput, hUnnamed, hOptions, hComments⟩,
      fun ⟨hName, hInputs, hStreaming, hOutput, hUnnamed, hOptions, hComments⟩ =>
        ⟨hName, hInputs, hStreaming, hOutput, hUnnamed, hOptions, hComments⟩⟩

/-- A service that can be written. -/
structure Service.Printable (service : Service) : Prop where
  name : IsWord service.name
  methods : ∀ method ∈ service.methods, method.Printable
  options : service.options.Declared
  comments : PrintableComments service.comments

instance (service : Service) : Decidable service.Printable :=
  decidable_of_iff
    (IsWord service.name ∧ (∀ method ∈ service.methods, method.Printable) ∧
      service.options.Declared ∧ PrintableComments service.comments)
    ⟨fun ⟨hName, hMethods, hOptions, hComments⟩ => ⟨hName, hMethods, hOptions, hComments⟩,
      fun ⟨hName, hMethods, hOptions, hComments⟩ => ⟨hName, hMethods, hOptions, hComments⟩⟩

/-! ## Messages -/

/-- The parts of a message outside of its nested messages and `extend` blocks can be
written. -/
structure Message.MembersPrintable (message : Message) : Prop where
  name : IsWord message.name
  enums : ∀ decl ∈ message.enums, decl.Printable
  fields : ∀ field ∈ message.fields, field.Printable
  extensions : ∀ range ∈ message.extensions, range.Printable
  reserved : ∀ entry ∈ message.reserved, entry.Printable
  options : message.options.Declared
  comments : PrintableComments message.comments

instance (message : Message) : Decidable message.MembersPrintable :=
  decidable_of_iff
    (IsWord message.name ∧ (∀ decl ∈ message.enums, decl.Printable) ∧
      (∀ field ∈ message.fields, field.Printable) ∧
      (∀ range ∈ message.extensions, range.Printable) ∧
      (∀ entry ∈ message.reserved, entry.Printable) ∧
      message.options.Declared ∧ PrintableComments message.comments)
    ⟨fun ⟨hName, hEnums, hFields, hExtensions, hReserved, hOptions, hComments⟩ =>
        ⟨hName, hEnums, hFields, hExtensions, hReserved, hOptions, hComments⟩,
      fun ⟨hName, hEnums, hFields, hExtensions, hReserved, hOptions, hComments⟩ =>
        ⟨hName, hEnums, hFields, hExtensions, hReserved, hOptions, hComments⟩⟩

mutual

/-- A message that can be written. -/
def Message.Printable : Message → Prop
  | ⟨name, messages, enums, fields, extendBlocks, extensions, reserved, options, comments⟩ =>
      Message.MembersPrintable
        ⟨name, messages, enums, fields, extendBlocks, extensions, reserved, options, comments⟩ ∧
      Message.LevelPrintable messages ∧ ExtendBlock.LevelPrintable extendBlocks

/-- Messages that can be written. -/
def Message.LevelPrintable : List Message → Prop
  | [] => True
  | message :: rest => message.Printable ∧ Message.LevelPrintable rest

/-- `extend` blocks that can be written.  A body has the name of the target and no
comments of its own. -/
def ExtendBlock.LevelPrintable : List ExtendBlock → Prop
  | [] => True
  | ⟨target, body⟩ :: rest =>
      (body.name = target ∧ body.comments = [] ∧ body.Printable) ∧
        ExtendBlock.LevelPrintable rest

end

mutual

/-- Decide whether a message can be written. -/
def Message.decidePrintable : (message : Message) → Decidable message.Printable
  | ⟨name, messages, enums, fields, extendBlocks, extensions, reserved, options, comments⟩ =>
      have := Message.decideLevel messages
      have := ExtendBlock.decideLevel extendBlocks
      inferInstanceAs (Decidable (Message.MembersPrintable
        ⟨name, messages, enums, fields, extendBlocks, extensions, reserved, options, comments⟩ ∧
        Message.LevelPrintable messages ∧ ExtendBlock.LevelPrintable extendBlocks))

/-- Decide whether messages can be written. -/
def Message.decideLevel : (messages : List Message) → Decidable (Message.LevelPrintable messages)
  | [] => isTrue trivial
  | message :: rest =>
      have := message.decidePrintable
      have := Message.decideLevel rest
      inferInstanceAs (Decidable (message.Printable ∧ Message.LevelPrintable rest))

/-- Decide whether blocks can be written. -/
def ExtendBlock.decideLevel : (blocks : List ExtendBlock) →
    Decidable (ExtendBlock.LevelPrintable blocks)
  | [] => isTrue trivial
  | ⟨target, body⟩ :: rest =>
      have := body.decidePrintable
      have := ExtendBlock.decideLevel rest
      inferInstanceAs (Decidable ((body.name = target ∧ body.comments = [] ∧ body.Printable) ∧
        ExtendBlock.LevelPrintable rest))

end

instance (message : Message) : Decidable message.Printable :=
  message.decidePrintable

/-- An `extend` block that can be written. -/
structure ExtendBlock.Printable (block : ExtendBlock) : Prop where
  name : block.body.name = block.target
  comments : block.body.comments = []
  body : block.body.Printable

instance (block : ExtendBlock) : Decidable block.Printable :=
  decidable_of_iff
    (block.body.name = block.target ∧ block.body.comments = [] ∧ block.body.Printable)
    ⟨fun ⟨hName, hComments, hBody⟩ => ⟨hName, hComments, hBody⟩,
      fun ⟨hName, hComments, hBody⟩ => ⟨hName, hComments, hBody⟩⟩

theorem Message.levelPrintable_iff (messages : List Message) :
    Message.LevelPrintable messages ↔ ∀ message ∈ messages, message.Printable := by
  induction messages with
  | nil => simp [LevelPrintable]
  | cons message rest ih => rw [LevelPrintable, ih, List.forall_mem_cons]

theorem ExtendBlock.levelPrintable_iff (blocks : List ExtendBlock) :
    ExtendBlock.LevelPrintable blocks ↔ ∀ block ∈ blocks, block.Printable := by
  induction blocks with
  | nil => simp [LevelPrintable]
  | cons block rest ih =>
      cases block
      rw [LevelPrintable, ih, List.forall_mem_cons]
      exact and_congr_left fun _ =>
        ⟨fun h => ⟨h.1, h.2.1, h.2.2⟩, fun h => ⟨h.name, h.comments, h.body⟩⟩

/-- A message can be written when its parts can. -/
theorem Message.printable_iff (message : Message) :
    message.Printable ↔ message.MembersPrintable ∧
      (∀ inner ∈ message.messages, inner.Printable) ∧
        ∀ block ∈ message.extendBlocks, block.Printable := by
  cases message
  rw [Printable, levelPrintable_iff, ExtendBlock.levelPrintable_iff]

/-- The target of a block is the name of its body. -/
theorem ExtendBlock.Printable.isWord_target {block : ExtendBlock} (hBlock : block.Printable) :
    IsWord block.target := by
  rw [← hBlock.name]
  exact (block.body.printable_iff.mp hBlock.body).1.name

/-! ## Files -/

/-- An import whose path keeps its start when quotes are taken off it, and its last segment
when a file extension is. -/
structure Import.Printable (entry : Import) : Prop where
  start : Token.startsQuoted entry.path = false
  segment : Grammar.cutExtension entry.path.toList = entry.path.toList

instance (entry : Import) : Decidable entry.Printable :=
  decidable_of_iff
    (Token.startsQuoted entry.path = false ∧
      Grammar.cutExtension entry.path.toList = entry.path.toList)
    ⟨fun ⟨hStart, hSegment⟩ => ⟨hStart, hSegment⟩,
      fun ⟨hStart, hSegment⟩ => ⟨hStart, hSegment⟩⟩

/-- A schema that can be written. -/
structure Schema.Printable (schema : Schema) : Prop where
  package : ∀ name, schema.package = some name → IsWord name
  imports : ∀ entry ∈ schema.imports, entry.Printable
  messages : ∀ message ∈ schema.messages, message.Printable
  enums : ∀ decl ∈ schema.enums, decl.Printable
  services : ∀ service ∈ schema.services, service.Printable
  extendBlocks : ∀ block ∈ schema.extendBlocks, block.Printable
  options : schema.options.Declared
  comments : PrintableComments schema.comments

instance (schema : Schema) : Decidable schema.Printable :=
  decidable_of_iff
    ((∀ name, schema.package = some name → IsWord name) ∧
      (∀ entry ∈ schema.imports, entry.Printable) ∧
      (∀ message ∈ schema.messages, message.Printable) ∧
      (∀ decl ∈ schema.enums, decl.Printable) ∧
      (∀ service ∈ schema.services, service.Printable) ∧
      (∀ block ∈ schema.extendBlocks, block.Printable) ∧
      schema.options.Declared ∧ PrintableComments schema.comments)
    ⟨fun ⟨hPackage, hImports, hMessages, hEnums, hServices, hBlocks, hOptions, hComments⟩ =>
        ⟨hPackage, hImports, hMessages, hEnums, hServices, hBlocks, hOptions, hComments⟩,
      fun ⟨hPackage, hImports, hMessages, hEnums, hServices, hBlocks, hOptions, hComments⟩ =>
        ⟨hPackage, hImports, hMessages, hEnums, hServices, hBlocks, hOptions, hComments⟩⟩

end ProtoIdl
