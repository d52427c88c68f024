import ProtoIdl.Schema.Message
import ProtoIdl.Schema.Service

/-!
# Schemas

The tree that a schema file stands for: imports, messages, enums, services, `extend`
blocks, options and comments, each list in source order.
-/

namespace ProtoIdl

/-- The revision of the schema language. -/
inductive LanguageVersion where
  | proto2
  | proto3
  deriving DecidableEq, Repr

/-- How an import is passed on. -/
inductive ImportModifier where
  /-- Importers of this file see the imported file too. -/
  | pub
  /-- The imported file may be absent. -/
  | weak
  deriving DecidableEq, Repr

/-- An import of another file. -/
structure Import where
  /-- The path without its file extension. -/
  path : String
  modifier : Option ImportModifier
  deriving DecidableEq, Repr

/-- A whole schema file. -/
structure Schema where
  version : LanguageVersion
  package : Option String
  imports : List Import
  messages : List Message
  enums : List EnumDecl
  services : List Service
  extendBlocks : List ExtendBlock
  options : OptionMap
  /-- The comment run before the first statement. -/
  comments : List String

namespace Schema

/-- A schema without declarations. -/
def new (version : LanguageVersion) : Schema :=
  ⟨version, none, [], [], [], [], [], ∅, []⟩

/-- The service of a given name. -/
def service? (schema : Schema) (name : String) : Option Service :=
  schema.services.find? fun service => service.name == name

/-- The top-level enum of a given name. -/
def enum? (schema : Schema) (name : String) : Option EnumDecl :=
  schema.enums.find? fun decl => decl.name == name

end Schema
end ProtoIdl
