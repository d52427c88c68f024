import ProtoIdl.Grammar.OptionMap
import ProtoIdl.Parser.Loop
import ProtoIdl.Token.Keyword

/-!
# Option statements and field option lists

An option has a name, an equals sign and a value, which is a literal or an option
map.  Statements bind one option each; a field takes a list of them in brackets.
-/

namespace ProtoIdl
namespace Grammar

open ProtoIdl.Parser

/-! ## Names -/

/-- Whether a token continues an option name that stands in parentheses. -/
def isNameSuffix (token : Token) : Bool :=
  token.toList.head? == some '.'

/-- Read an option name: a word, or a word in parentheses that a token with a
leading dot may continue. -/
def optionName (context : String) : Parser String := do
  if ← eat "(" then
    let name ← word "option name" context
    expect ")" context
    match ← takeIf isNameSuffix with
    | some suffix => return name ++ suffix
    | none => return name
  else
    word "option name" context

/-! ## Values and statements -/

/-- The values of the option `optimize_for`. -/
def optimizeGoals : List String :=
  ["SPEED", "CODE_SIZE", "LITE_RUNTIME"]

/-- Whether an option may have a value; only `optimize_for` restricts it. -/
def admitsValue (name : String) (value : OptionValue) : Bool :=
  name != "optimize_for" || value.asText?.any optimizeGoals.contains

/-- Read the value of the option `name`, an option map or a literal, of which the first
token has been taken. -/
def valueFrom (name context : String) (first : Token) : Parser OptionValue := do
  let value ←
    if first = Token.openBrace then OptionValue.map <$> optionMap
    else if first.isPunctuation then rejectLast context
    else pure (.ofLiteral first)
  if admitsValue name value then return value
  else fail (.invalidOptimizeFor first)

/-- Read the value of the option `name`. -/
def optionValue (name context : String) : Parser OptionValue := do
  let first ← next "option value" context
  valueFrom name context first

/-- Read an option name, an equals sign and a value. -/
def optionBinding (context : String) : Parser (String × OptionValue) := do
  let name ← optionName context
  expect "=" context
  let value ← optionValue name context
  return (name, value)

/-- Read what follows the keyword of an option statement. -/
def optionRest : Parser (String × OptionValue) := do
  let binding ← optionBinding "option"
  expect ";" "option"
  return binding

/-- Read an option statement. -/
def option : Parser (String × OptionValue) := do
  expect Keyword.option.text "option"
  optionRest

/-- Read what follows the keyword of an option statement and add the binding to the
options of the scope. -/
def bindOptionRest (options : OptionMap) : Parser OptionMap := do
  let binding ← optionRest
  ofExcept (options.bind binding.1 binding.2)

/-- Read an option statement and add the binding to the options of the scope. -/
def bindOption (options : OptionMap) : Parser OptionMap := do
  expect Keyword.option.text "option"
  bindOptionRest options

/-! ## Field option lists -/

/-- Read one item of a field option list, with the comments around it. -/
def fieldOption (options : OptionMap) : Parser OptionMap := do
  let _ ← takeComments
  let binding ← optionBinding "field options"
  let grown ← ofExcept (options.bind binding.1 binding.2)
  let _ ← takeComments
  return grown

/-- Read a field option list in its brackets. -/
def fieldOptions : Parser OptionMap := do
  expect "[" "field options"
  commaList "]" "field options" fieldOption ∅

/-- Read a field option list if there is one. -/
def optionalFieldOptions : Parser OptionMap := do
  if (← peek) = some "[" then fieldOptions
  else return ∅

end Grammar
end ProtoIdl
