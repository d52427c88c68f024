import ProtoIdl.Grammar.File
import ProtoIdl.Schema.Link
import ProtoIdl.Token.Coalesce
import ProtoIdl.Token.Scanner

/-!
# Parsing schema files

The entry points: from source text, or from tokens, to a schema.  Text is split into
tokens, split string literals are joined, the grammar reads the file, and `extend`
blocks are linked.
-/

namespace ProtoIdl

/-- The settings of a parse. -/
structure Settings where
  /-- The revision of a file that names none. -/
  version : LanguageVersion := .proto3
  /-- The number of levels that messages and option maps may nest. -/
  maxDepth : Nat := Cursor.defaultLimit
  /-- Whether the fields of `extend` blocks are added to their targets. -/
  link : Bool := true
  deriving DecidableEq, Repr

/-- Read a file from tokens, without joining literals and without linking. -/
def readFile (tokens : List Token) (settings : Settings) : Except ParseError Schema :=
  match (Grammar.file settings.version).run (.ofTokens tokens settings.maxDepth) with
  | .ok schema _ => .ok schema
  | .error fault _ => .error fault

/-- Link a schema; a fault is the whole answer. -/
def Schema.linked (schema : Schema) : Except ParseError Schema :=
  match schema.link with
  | (linked, none) => .ok linked
  | (_, some fault) => .error fault

/-- Parse a file from its tokens. -/
def parseTokens (tokens : List Token) (settings : Settings) : Except ParseError Schema := do
  let schema ← readFile (Token.coalesce tokens) settings
  if settings.link then schema.linked else return schema

/-- Parse a file from its text. -/
def parse (source : String) (settings : Settings) : Except ParseError Schema := do
  let tokens ← tokenize source
  parseTokens tokens settings

end ProtoIdl
