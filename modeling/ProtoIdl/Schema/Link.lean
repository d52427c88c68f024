import ProtoIdl.Schema.Resolve

/-!
# Linking `extend` blocks

Linking adds the fields of every `extend` block to the message that the block names,
if the file declares it.  Blocks at the top level come first, then those in messages
in depth-first order, and a block inside a message names its target from there.

The blocks are collected before any field is added.  Each target is resolved in the
schema as it then stands, and each field is checked against the target as it has
grown.
-/

namespace ProtoIdl

/-! ## Blocks in order -/

namespace Message

mutual

/-- The blocks declared in a message and below it, each with the names of the messages
around it. -/
def scopedBlocks (scope : List String) : Message → List (List String × ExtendBlock)
  | ⟨name, messages, _, _, blocks, _, _, _, _⟩ =>
      let inner := scope ++ [name]
      (blocks.map fun block => (inner, block)) ++ scopedBlocksIn inner messages

/-- The blocks declared in the messages of a list and below them. -/
def scopedBlocksIn (scope : List String) : List Message → List (List String × ExtendBlock)
  | [] => []
  | message :: rest => scopedBlocks scope message ++ scopedBlocksIn scope rest

end

end Message

namespace Schema

/-- Every block of a schema in the order of linking, with the names of the messages
around it. -/
def scopedBlocks (schema : Schema) : List (List String × ExtendBlock) :=
  (schema.extendBlocks.map fun block => ([], block)) ++
    Message.scopedBlocksIn [] schema.messages

end Schema

/-! ## Additions -/

/-- Why a message cannot take an extension field, if it cannot: its number must be
open, and neither its name nor its number may be taken. -/
def Message.extensionFault? (message : Message) (field : Field) : Option ParseError :=
  if !message.acceptsExtension field.tag then
    some (.extensionOutOfRange message.name field.tag)
  else if (message.field? field.name).isSome || (message.fieldByTag? field.tag).isSome then
    some (.duplicate .extendedField field.name)
  else none

/-- Add a field at the end. -/
def Message.addField (message : Message) (field : Field) : Message :=
  { message with fields := message.fields ++ [field] }

namespace Schema

/-- Add fields to the message at a path, in order, up to the first that cannot be added,
and answer what keeps it from being added. -/
def addFields (schema : Schema) (path : MessagePath) : List Field → Schema × Option ParseError
  | [] => (schema, none)
  | field :: rest =>
      match (schema.at? path).bind fun target => target.extensionFault? field with
      | some fault => (schema, some fault)
      | none => (schema.modifyAt (fun target => target.addField field) path).addFields path rest

/-- Link one block.  A target that the file does not declare takes no fields. -/
def linkBlock (schema : Schema) (entry : List String × ExtendBlock) :
    Schema × Option ParseError :=
  match schema.locate? entry.1 entry.2.target with
  | none => (schema, none)
  | some path => schema.addFields path entry.2.body.fields

/-- Link blocks in order, up to the first fault. -/
def linkBlocks (schema : Schema) : List (List String × ExtendBlock) → Schema × Option ParseError
  | [] => (schema, none)
  | entry :: rest =>
      match schema.linkBlock entry with
      | (stuck, some fault) => (stuck, some fault)
      | (grown, none) => grown.linkBlocks rest

/-- Link every `extend` block.  The schema is answered as it stands when a fault stops
the linking. -/
def link (schema : Schema) : Schema × Option ParseError :=
  schema.linkBlocks schema.scopedBlocks

end Schema
end ProtoIdl
