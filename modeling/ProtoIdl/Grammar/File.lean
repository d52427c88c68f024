import ProtoIdl.Grammar.Message
import ProtoIdl.Grammar.Service
import ProtoIdl.Schema.Basic

/-!
# Files

A file is a sequence of statements.  The comments before the first statement belong
to the file, and those before a message, an enum or a service belong to it too.
-/

namespace ProtoIdl
namespace Grammar

open ProtoIdl.Parser

/-! ## Statements -/

/-- Read what follows the keyword of a package statement. -/
def packageRest : Parser String := do
  let name ← word "package name" "package"
  expect ";" "package"
  return name

/-- The revision that a quoted string names. -/
def versionOfLiteral? (literal : Token) : Option LanguageVersion :=
  if literal.startsQuoted then
    if literal.unquote = "proto2" then some .proto2
    else if literal.unquote = "proto3" then some .proto3
    else none
  else none

/-- Read what follows the keyword of a statement of the language revision. -/
def versionRest : Parser LanguageVersion := do
  expect "=" "syntax"
  let literal ← next "syntax version" "syntax"
  match versionOfLiteral? literal with
  | none => fail (.unknownVersion literal)
  | some version =>
      expect ";" "syntax"
      return version

/-- Cut the last segment of a path at its first dot. -/
def cutExtension (path : List Char) : List Char :=
  let file := (path.reverse.takeWhile (· != '/')).reverse
  path.take (path.length - file.length) ++ file.takeWhile (· != '.')

/-- Read the modifier of an import, which may be absent. -/
def importModifier : Parser (Option ImportModifier) := do
  if ← eat "public" then return some .pub
  else if ← eat "weak" then return some .weak
  else return none

/-- Read what follows the keyword of an import. -/
def importRest : Parser Import := do
  let modifier ← importModifier
  let literal ← word "import path" "import"
  expect ";" "import"
  return ⟨String.ofList (cutExtension literal.unquote.toList), modifier⟩

/-! ## Whole files -/

/-- The schema read so far, and whether a statement has been read. -/
structure FileState where
  schema : Schema
  started : Bool

/-- Read what follows the keyword of a statement and add it to the schema. -/
def declaration (schema : Schema) (started : Bool) (comments : List String) :
    Option Keyword → Parser Schema
  | some .package => do
      let name ← packageRest
      return { schema with package := some name }
  | some .syntaxVersion =>
      if started then fail .versionNotFirst
      else do
        let version ← versionRest
        return { schema with version := version }
  | some .message => do
      let decl ← messageRest
      return { schema with
        messages := schema.messages ++ [{ decl with comments := comments }] }
  | some .enum => do
      let decl ← enumRest
      return { schema with enums := schema.enums ++ [{ decl with comments := comments }] }
  | some .option => do
      let options ← bindOptionRest schema.options
      return { schema with options := options }
  | some .importFile => do
      let entry ← importRest
      return { schema with imports := schema.imports ++ [entry] }
  | some .extend => do
      let block ← extendRest
      return { schema with extendBlocks := schema.extendBlocks ++ [block] }
  | some .service => do
      let decl ← serviceRest
      return { schema with
        services := schema.services ++ [{ decl with comments := comments }] }
  | _ => rejectLast "file"

/-- Read a statement, of which the comments and the first token have been taken.  The
comments before the first statement become those of the file. -/
def statement (state : FileState) (head : List String × Token) : Parser FileState :=
  if head.2 = ";" then pure state
  else do
    let schema :=
      if state.started then state.schema else { state.schema with comments := head.1 }
    let grown ← declaration schema state.started head.1 (Keyword.ofToken? head.2)
    return ⟨grown, true⟩

/-- Read a whole file, in the given revision unless it names one. -/
def file (version : LanguageVersion) : Parser Schema := do
  let state ← loop statementHead statement ⟨.new version, false⟩
  return state.schema

end Grammar
end ProtoIdl
