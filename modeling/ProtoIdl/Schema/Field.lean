import ProtoIdl.Schema.Option

/-!
# Types and fields

The names of types are kept as written, apart from the built-in types, which are
told from the others by name.
-/

namespace ProtoIdl

/-- The type of a field or of a method argument. -/
inductive FieldType where
  /-- A built-in type, by name. -/
  | scalar (name : String)
  /-- A message or an enum, by name. -/
  | named (name : String)
  /-- A map, by the names of its key type and its value type. -/
  | map (key value : String)
  deriving DecidableEq, Repr

namespace FieldType

/-- The names of the built-in types. -/
def scalarNames : List String :=
  ["double", "float", "int32", "int64", "uint32", "uint64", "sint32", "sint64",
    "fixed32", "fixed64", "sfixed32", "sfixed64", "bool", "string", "bytes"]

/-- The type that a name stands for, maps apart. -/
def ofName (name : String) : FieldType :=
  if scalarNames.contains name then scalar name else named name

/-- The name of a type; every map is called `map`. -/
def name : FieldType → String
  | scalar name => name
  | named name => name
  | map _ _ => "map"

end FieldType

/-- A field of a message. -/
structure Field where
  name : String
  type : FieldType
  tag : Nat
  required : Bool
  repeated : Bool
  /-- The group of alternatives that the field belongs to. -/
  oneof : Option String
  options : OptionMap
  comments : List String

namespace Field

/-- A field with no rule, no options and no comments. -/
def plain (name : String) (type : FieldType) (tag : Nat) : Field :=
  ⟨name, type, tag, false, false, none, ∅, []⟩

/-- The names of the key type and the value type, of a map field. -/
def mapType? (field : Field) : Option (String × String) :=
  match field.type with
  | .map key value => some (key, value)
  | _ => none

end Field

end ProtoIdl
