import ProtoIdl.Schema.Option
import ProtoIdl.Schema.Range

/-!
# Enums

An enum names numbers.  Two of its values may share a number but not a name.
-/

namespace ProtoIdl

/-- A named number of an enum. -/
structure EnumValue where
  name : String
  number : Int
  options : OptionMap
  comments : List String

/-- An enum declaration. -/
structure EnumDecl where
  name : String
  values : List EnumValue
  reserved : List Reserved
  options : OptionMap
  comments : List String

namespace EnumDecl

/-- An enum without members. -/
def new (name : String) : EnumDecl :=
  ⟨name, [], [], ∅, []⟩

/-- The value of a given name. -/
def value? (decl : EnumDecl) (name : String) : Option EnumValue :=
  decl.values.find? fun value => value.name == name

end EnumDecl

end ProtoIdl
