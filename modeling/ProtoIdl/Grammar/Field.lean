import ProtoIdl.Grammar.Option
import ProtoIdl.Schema.Field

/-!
# Fields and groups of alternatives

A field has a rule or none, a type, a name, a number, and perhaps options.  The
fields of a `oneof` group have no rule, are not maps, and carry the group's name.
-/

namespace ProtoIdl
namespace Grammar

open ProtoIdl.Parser

/-- Read the two type names of a map type, after the keyword. -/
def mapTypeRest : Parser FieldType := do
  expect "<" "map type"
  let key ← word "map key type" "map type"
  expect "," "map type"
  let value ← word "map value type" "map type"
  expect ">" "map type"
  return .map key value

/-- Read the type or the name of a field; a semicolon in its place means that it was
left out. -/
def fieldWord (slot : FieldSlot) : Parser Token := do
  if (← peek) = some ";" then fail (.missing slot)
  else word slot.noun "message field"

/-- What stands before the name of a field. -/
structure FieldHead where
  type : FieldType
  required : Bool
  repeated : Bool
  comments : List String

/-- Read the rest of a field with a rule up to its name.  Comments after the rule
belong to the field too. -/
def ruledHead (comments : List String) (required repeated : Bool) : Parser FieldHead := do
  let more ← takeComments
  let type ← fieldWord .type
  return ⟨.ofName type, required, repeated, comments ++ more⟩

/-- Read a field up to its name; the comments and the first token have been taken. -/
def fieldHead (comments : List String) (first : Token) : Parser FieldHead :=
  match Keyword.ofToken? first with
  | some .map => do
      let type ← mapTypeRest
      return ⟨type, false, false, comments⟩
  | some .repeated => ruledHead comments false true
  | some .required => ruledHead comments true false
  | some .optional => ruledHead comments false false
  | _ => do
      let type ← checkWord first "message field"
      return ⟨.ofName type, false, false, comments⟩

/-- Read a field, of which the comments and the first token have been taken. -/
def fieldRest (comments : List String) (first : Token) : Parser Field := do
  let head ← fieldHead comments first
  let name ← fieldWord (.name head.type.name)
  expect "=" "message field"
  let literal ← next "field number" "message field"
  let tag ← numeral Numeral.fieldNumbers literal "field number"
  let options ← optionalFieldOptions
  expect ";" "message field"
  return ⟨name, head.type, tag.toNat, head.required, head.repeated, none, options,
    head.comments⟩

/-- Read a member of the group `group`, of which the comments and the first token
have been taken. -/
def oneofMember (group : String) (fields : List Field) (head : List String × Token) :
    Parser (List Field) :=
  if head.2 = ";" then pure fields
  else
    match Keyword.ofToken? head.2 with
    | some .repeated | some .required | some .map | some .option => rejectLast "oneof"
    | _ => do
        let field ← fieldRest head.1 head.2
        return fields ++ [{ field with oneof := some group }]

/-- Read what follows the keyword of a `oneof` group and add its fields to those that
are there. -/
def oneofRest (fields : List Field) : Parser (List Field) := do
  let group ← word "oneof name" "oneof"
  expect Token.openBrace "oneof"
  loop (memberHead "oneof") (oneofMember group) fields

end Grammar
end ProtoIdl
