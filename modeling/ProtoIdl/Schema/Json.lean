import ProtoIdl.Json
import ProtoIdl.Schema.Basic

/-!
# The JSON form of a schema

Every structure becomes an object with its members in a fixed order.  A choice
with content becomes an object with one member, named for the alternative; one
without content becomes that name.  Option maps are objects in their own order,
and option values stand for themselves.
-/

namespace ProtoIdl

mutual

/-- An option value as it is, without a mark of its kind. -/
def OptionValue.toJson : OptionValue → Json
  | .bool value => .bool value
  | .text value => .text value
  | .map value => value.toJson
  | .list blocks => .array (OptionMap.blocksToJson blocks)

/-- An option map as an object. -/
def OptionMap.toJson : OptionMap → Json
  | ⟨entries⟩ => .object (OptionMap.entriesToJson entries)

/-- The bindings of an option map, in order. -/
def OptionMap.entriesToJson : List (String × OptionValue) → List (String × Json)
  | [] => []
  | (key, value) :: rest => (key, value.toJson) :: OptionMap.entriesToJson rest

/-- A list of blocks, in order. -/
def OptionMap.blocksToJson : List OptionMap → List Json
  | [] => []
  | block :: rest => block.toJson :: OptionMap.blocksToJson rest

end

/-- A list of strings. -/
def Json.ofStrings (values : List String) : Json :=
  .ofList .text values

/-- A type, by its kind. -/
def FieldType.toJson : FieldType → Json
  | .scalar name => .object [("Scalar", .text name)]
  | .named name => .object [("MessageRef", .text name)]
  | .map key value =>
      .object [("Map", .object [("key", .text key), ("value", .text value)])]

/-- A field. -/
def Field.toJson (field : Field) : Json :=
  .object
    [("name", .text field.name),
      ("field_type", field.type.toJson),
      ("tag", .int field.tag),
      ("required", .bool field.required),
      ("repeated", .bool field.repeated),
      ("oneof", .ofOption .text field.oneof),
      ("options", field.options.toJson),
      ("comments", .ofStrings field.comments)]

/-- An interval open to `extend` blocks. -/
def ExtensionRange.toJson (range : ExtensionRange) : Json :=
  .object [("from", .int range.first), ("to", .int range.last)]

/-- A reserved interval or name, by its kind. -/
def Reserved.toJson : Reserved → Json
  | .range first last =>
      .object [("Range", .object [("from", .int first), ("to", .int last)])]
  | .name text => .object [("Name", .text text)]

/-- A value of an enum. -/
def EnumValue.toJson (value : EnumValue) : Json :=
  .object
    [("name", .text value.name),
      ("value", .int value.number),
      ("options", value.options.toJson),
      ("comments", .ofStrings value.comments)]

/-- An enum. -/
def EnumDecl.toJson (decl : EnumDecl) : Json :=
  .object
    [("name", .text decl.name),
      ("values", .ofList EnumValue.toJson decl.values),
      ("reserved", .ofList Reserved.toJson decl.reserved),
      ("options", decl.options.toJson),
      ("comments", .ofStrings decl.comments)]

mutual

/-- A message with all that is declared inside it. -/
def Message.toJson : Message → Json
  | ⟨name, messages, enums, fields, extendBlocks, extensions, reserved, options, comments⟩ =>
      .object
        [("name", .text name),
          ("messages", .array (Message.listToJson messages)),
          ("enums", .ofList EnumDecl.toJson enums),
          ("fields", .ofList Field.toJson fields),
          ("extends", .array (ExtendBlock.listToJson extendBlocks)),
          ("extensions", .ofList ExtensionRange.toJson extensions),
          ("reserved", .ofList Reserved.toJson reserved),
          ("options", options.toJson),
          ("comments", .ofStrings comments)]

/-- An `extend` block. -/
def ExtendBlock.toJson : ExtendBlock → Json
  | ⟨target, body⟩ => .object [("name", .text target), ("message", body.toJson)]

/-- Messages, in order. -/
def Message.listToJson : List Message → List Json
  | [] => []
  | message :: rest => message.toJson :: Message.listToJson rest

/-- Blocks, in order. -/
def ExtendBlock.listToJson : List ExtendBlock → List Json
  | [] => []
  | block :: rest => block.toJson :: ExtendBlock.listToJson rest

end

/-- A parameter or a result. -/
def RpcArgument.toJson (argument : RpcArgument) : Json :=
  .object
    [("name", .ofOption .text argument.name),
      ("ty", argument.type.toJson),
      ("repeated", .bool argument.repeated)]

/-- A method. -/
def RpcMethod.toJson (method : RpcMethod) : Json :=
  .object
    [("name", .text method.name),
      ("inputs", .ofList RpcArgument.toJson method.inputs),
      ("output", method.output.toJson),
      ("client_streaming", .bool method.clientStreaming),
      ("server_streaming", .bool method.serverStreaming),
      ("options", method.options.toJson),
      ("comments", .ofStrings method.comments)]

/-- A service. -/
def Service.toJson (service : Service) : Json :=
  .object
    [("name", .text service.name),
      ("methods", .ofList RpcMethod.toJson service.methods),
      ("options", service.options.toJson),
      ("comments", .ofStrings service.comments)]

/-- The name of a language revision. -/
def LanguageVersion.toJson : LanguageVersion → Json
  | .proto2 => .text "Proto2"
  | .proto3 => .text "Proto3"

/-- The name of an import modifier. -/
def ImportModifier.toJson : ImportModifier → Json
  | .pub => .text "Public"
  | .weak => .text "Weak"

/-- An import. -/
def Import.toJson (entry : Import) : Json :=
  .object
    [("module", .text entry.path),
      ("modifier", .ofOption ImportModifier.toJson entry.modifier)]

/-- A whole schema. -/
def Schema.toJson (schema : Schema) : Json :=
  .object
    [("syntax", schema.version.toJson),
      ("package", .ofOption .text schema.package),
      ("imports", .ofList Import.toJson schema.imports),
      ("messages", .array (Message.listToJson schema.messages)),
      ("enums", .ofList EnumDecl.toJson schema.enums),
      ("services", .ofList Service.toJson schema.services),
      ("extends", .array (ExtendBlock.listToJson schema.extendBlocks)),
      ("options", schema.options.toJson),
      ("comments", .ofStrings schema.comments)]

/-- The compact JSON text of a schema. -/
def Schema.serialize (schema : Schema) : String :=
  schema.toJson.compact

end ProtoIdl
