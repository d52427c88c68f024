import ProtoIdl.Proofs.OptionMap
import ProtoIdl.Schema.Basic

/-!
# Well-formed schemas

What every schema that comes from a file satisfies, stated on the tree alone.  Each kind of
node has its own conditions, and a tree is well formed if all its nodes are, at every depth
and inside `extend` blocks too.
-/

namespace ProtoIdl

/-! ## Options -/

/-- Lists of blocks are never empty, at any depth. -/
inductive OptionValue.WellFormed : OptionValue → Prop
  | bool (value : Bool) : WellFormed (.bool value)
  | text (value : String) : WellFormed (.text value)
  | map {inner : OptionMap} (hEntries : ∀ entry ∈ inner.entries, WellFormed entry.2) :
      WellFormed (.map inner)
  | list {blocks : List OptionMap} (hFilled : blocks ≠ [])
      (hBlocks : ∀ block ∈ blocks, ∀ entry ∈ block.entries, WellFormed entry.2) :
      WellFormed (.list blocks)

/-- The values of a map are well formed.  Lists are admitted among them, as they are in the
maps that values are made of. -/
def OptionMap.ValuesWellFormed (options : OptionMap) : Prop :=
  ∀ entry ∈ options.entries, entry.2.WellFormed

/-- A value that a declaration binds to a name: one value and not a list, and for
`optimize_for` one of its goals. -/
structure OptionValue.BoundTo (value : OptionValue) (name : String) : Prop where
  wellFormed : value.WellFormed
  single : ∀ blocks, value ≠ .list blocks
  goal : name = "optimize_for" → ∃ goal ∈ ["SPEED", "CODE_SIZE", "LITE_RUNTIME"], value = .text goal

/-- The options of a declaration. -/
def OptionMap.WellFormed (options : OptionMap) : Prop :=
  ∀ entry ∈ options.entries, entry.2.BoundTo entry.1

/-! ## Fields and enums -/

/-- Built-in types have the names of built-in types, and types by name do not. -/
def FieldType.WellFormed : FieldType → Prop
  | .scalar name => name ∈ scalarNames
  | .named name => name ∉ scalarNames
  | .map _ _ => True

/-- A type that is not a map. -/
def FieldType.NotMap (type : FieldType) : Prop :=
  ∀ key value, type ≠ .map key value

structure Field.WellFormed (field : Field) : Prop where
  type : field.type.WellFormed
  rule : ¬(field.required = true ∧ field.repeated = true)
  map : ∀ key value, field.type = .map key value →
    field.required = false ∧ field.repeated = false ∧ field.oneof = none
  oneof : ∀ group, field.oneof = some group →
    field.required = false ∧ field.repeated = false ∧ field.type.NotMap
  options : field.options.WellFormed

structure EnumDecl.WellFormed (decl : EnumDecl) : Prop where
  names : (decl.values.map fun value => value.name).Nodup
  values : ∀ value ∈ decl.values, value.options.WellFormed
  options : decl.options.WellFormed

/-! ## Services -/

structure RpcArgument.WellFormed (argument : RpcArgument) : Prop where
  type : argument.type.WellFormed
  map : argument.repeated = true → argument.type.NotMap

structure RpcMethod.WellFormed (method : RpcMethod) : Prop where
  inputs : ∀ argument ∈ method.inputs, argument.WellFormed
  streamed : method.clientStreaming = true → method.inputs ≠ []
  output : method.output.WellFormed
  unnamed : method.output.name = none
  options : method.options.WellFormed

structure Service.WellFormed (service : Service) : Prop where
  methods : ∀ method ∈ service.methods, method.WellFormed
  options : service.options.WellFormed

/-! ## Messages and files -/

/-- The members of a message other than its blocks are well formed. -/
structure Message.MembersWellFormed (message : Message) : Prop where
  fields : ∀ field ∈ message.fields, field.WellFormed
  enums : ∀ decl ∈ message.enums, decl.WellFormed
  options : message.options.WellFormed

/-- A message is well formed if its members and its blocks are.  What an `extend` block
holds is a message with the name of its target. -/
inductive Message.WellFormed : Message → Prop
  | of_parts {message : Message} (hMembers : message.MembersWellFormed)
      (hMessages : ∀ inner ∈ message.messages, WellFormed inner)
      (hTargets : ∀ block ∈ message.extendBlocks, block.body.name = block.target)
      (hBlocks : ∀ block ∈ message.extendBlocks, WellFormed block.body) : WellFormed message

structure ExtendBlock.WellFormed (block : ExtendBlock) : Prop where
  name : block.body.name = block.target
  body : block.body.WellFormed

structure Schema.WellFormed (schema : Schema) : Prop where
  messages : ∀ message ∈ schema.messages, message.WellFormed
  enums : ∀ decl ∈ schema.enums, decl.WellFormed
  services : ∀ service ∈ schema.services, service.WellFormed
  extendBlocks : ∀ block ∈ schema.extendBlocks, block.WellFormed
  options : schema.options.WellFormed

/-! ## Growing lists -/

/-- What holds of each of a list and of one more holds of each of the longer list. -/
theorem forall_mem_concat {holds : α → Prop} {list : List α} {last : α}
    (hList : ∀ a ∈ list, holds a) (hLast : holds last) : ∀ a ∈ list ++ [last], holds a :=
  List.forall_mem_append.mpr ⟨hList, List.forall_mem_singleton.mpr hLast⟩

namespace OptionMap

variable {options grown : OptionMap} {key : String}

theorem wellFormed_empty : (∅ : OptionMap).WellFormed := by
  rintro entry ⟨⟩

theorem valuesWellFormed_empty : (∅ : OptionMap).ValuesWellFormed := by
  rintro entry ⟨⟩

/-- A binding that is added to a declaration has to be a binding of a declaration. -/
theorem WellFormed.bind {value : OptionValue} (hOptions : options.WellFormed)
    (hValue : value.BoundTo key) (hBind : options.bind key value = .ok grown) :
    grown.WellFormed := by
  rw [eq_append_of_bind hBind]
  exact forall_mem_concat hOptions hValue

theorem ValuesWellFormed.bind {value : OptionValue} (hOptions : options.ValuesWellFormed)
    (hValue : value.WellFormed) (hBind : options.bind key value = .ok grown) :
    grown.ValuesWellFormed := by
  rw [eq_append_of_bind hBind]
  exact forall_mem_concat hOptions hValue

/-- The first block of a key makes a list of one, and a further one makes it longer, so no
list is empty. -/
theorem ValuesWellFormed.pushBlock {block : OptionMap} (hOptions : options.ValuesWellFormed)
    (hBlock : block.ValuesWellFormed) (hPush : options.pushBlock key block = .ok grown) :
    grown.ValuesWellFormed := by
  rcases eq_of_pushBlock hPush with ⟨-, rfl⟩ | ⟨blocks, hGet, rfl⟩
  · refine forall_mem_concat hOptions (.list (by simp) ?_)
    intro first hFirst
    rw [List.mem_singleton.mp hFirst]
    exact hBlock
  · obtain ⟨before, after, hEntries, -⟩ := List.lookup_eq_some_iff.mp hGet
    have hOld : (OptionValue.list blocks).WellFormed :=
      hOptions (key, .list blocks) (by rw [hEntries]; simp)
    cases hOld with
    | list hFilled hBlocks =>
        have hLonger : (OptionValue.list (blocks ++ [block])).WellFormed :=
          .list (by simp) (forall_mem_concat hBlocks hBlock)
        intro entry hMem
        obtain ⟨old, hOld, rfl⟩ := List.mem_map.mp hMem
        split
        · exact hLonger
        · exact hOptions old hOld

end OptionMap

namespace Message

/-- The parts of a well-formed message. -/
theorem WellFormed.parts {message : Message} (hMessage : message.WellFormed) :
    message.MembersWellFormed ∧ (∀ inner ∈ message.messages, inner.WellFormed) ∧
      ∀ block ∈ message.extendBlocks, block.WellFormed := by
  cases hMessage with
  | of_parts hMembers hMessages hTargets hBlocks =>
      exact ⟨hMembers, hMessages, fun block hMem => ⟨hTargets block hMem, hBlocks block hMem⟩⟩

theorem WellFormed.mk {message : Message} (hMembers : message.MembersWellFormed)
    (hMessages : ∀ inner ∈ message.messages, inner.WellFormed)
    (hBlocks : ∀ block ∈ message.extendBlocks, block.WellFormed) : message.WellFormed :=
  .of_parts hMembers hMessages (fun block hMem => (hBlocks block hMem).name)
    fun block hMem => (hBlocks block hMem).body

/-- The comments of a message do not matter. -/
theorem WellFormed.withComments {message : Message} (hMessage : message.WellFormed)
    (comments : List String) : { message with comments := comments }.WellFormed := by
  obtain ⟨hMembers, hMessages, hBlocks⟩ := hMessage.parts
  exact .mk ⟨hMembers.fields, hMembers.enums, hMembers.options⟩ hMessages hBlocks

theorem wellFormed_new (name : String) : (new name).WellFormed :=
  .mk ⟨by rintro _ ⟨⟩, by rintro _ ⟨⟩, OptionMap.wellFormed_empty⟩ (by rintro _ ⟨⟩)
    (by rintro _ ⟨⟩)

end Message
end ProtoIdl
