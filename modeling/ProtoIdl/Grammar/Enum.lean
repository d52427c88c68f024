import ProtoIdl.Grammar.Option
import ProtoIdl.Grammar.Range
import ProtoIdl.Schema.Enum

/-!
# Enums

The members of an enum are values, option statements, `reserved` statements and
empty statements.  A value is recognised by the tokens that follow its name before
any of them is taken.
-/

namespace ProtoIdl
namespace Grammar

open ProtoIdl.Parser

/-- Check that an equals sign comes next and that, one token later, a semicolon or a
field option list does. -/
def enumValueShape : Parser Unit := do
  let sign ← peekNth 0
  match ← peekNth 2 with
  | none => rejectEnd ";" "enum value"
  | some terminator =>
      if sign ≠ some "=" then rejectNth 0 "enum value"
      else if terminator ≠ ";" ∧ terminator ≠ "[" then rejectNth 2 "enum value"
      else return ()

/-- Read an enum value that has the right shape; its first token has been taken. -/
def enumValueBody (comments : List String) (first : Token) : Parser EnumValue := do
  let name ← checkWord first "enum value"
  expect "=" "enum value"
  let literal ← next "enum number" "enum value"
  let number ← numeral Numeral.enumNumbers literal "enum value"
  let options ← optionalFieldOptions
  expect ";" "enum value"
  return ⟨name, number, options, comments⟩

/-- Read an enum value, of which the first token has been taken. -/
def enumValueRest (comments : List String) (first : Token) : Parser EnumValue := do
  enumValueShape
  enumValueBody comments first

/-- Add a value to an enum that has none of its name. -/
def addEnumValue (decl : EnumDecl) (value : EnumValue) : Except ParseError EnumDecl :=
  if (decl.value? value.name).isSome then .error (.duplicate .enumValue value.name)
  else .ok { decl with values := decl.values ++ [value] }

/-- Read a member of an enum, of which the comments and the first token have been
taken. -/
def enumMember (decl : EnumDecl) (head : List String × Token) : Parser EnumDecl :=
  if head.2 = ";" then pure decl
  else
    match Keyword.ofToken? head.2 with
    | some .option => do
        let options ← bindOptionRest decl.options
        return { decl with options := options }
    | some .reserved => do
        let reserved ← reservedRest maxEnumNumber decl.reserved
        return { decl with reserved := reserved }
    | _ => do
        let value ← enumValueRest head.1 head.2
        ofExcept (addEnumValue decl value)

/-- Read what follows the keyword of an enum, with a semicolon if one follows. -/
def enumRest : Parser EnumDecl := do
  let name ← word "enum name" "enum"
  expect Token.openBrace "enum"
  let decl ← loop (memberHead "enum") enumMember (.new name)
  let _ ← eat ";"
  return decl

/-- Read an enum. -/
def enum : Parser EnumDecl := do
  expect Keyword.enum.text "enum"
  enumRest

end Grammar
end ProtoIdl
