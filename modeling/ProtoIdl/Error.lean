import ProtoIdl.Token

/-!
# Parse errors

One constructor for each cause.  The first fault found ends a parse, so an error
is the whole answer.  The wording is in `ParseError.message` alone.
-/

namespace ProtoIdl

/-- Why a source text does not split into tokens. -/
inductive LexicalFault where
  /-- A block comment runs to the end of the text. -/
  | unterminatedComment
  /-- A string literal meets the end of its line or of the text. -/
  | unterminatedLiteral
  deriving DecidableEq, Repr

/-- The wording of a lexical fault. -/
def LexicalFault.message : LexicalFault → String
  | unterminatedComment => "unterminated block comment"
  | unterminatedLiteral => "unterminated string literal"

/-- The kinds of names that may be given only once in their scope. -/
inductive Binding where
  | option
  | optionMapKey
  | enumValue
  | extendedField
  deriving DecidableEq, Repr

/-- The wording of a kind of name. -/
def Binding.noun : Binding → String
  | option => "option"
  | optionMapKey => "option map key"
  | enumValue => "enum value"
  | extendedField => "extended field"

/-- What a field declaration can leave out. -/
inductive FieldSlot where
  /-- The type, in any field. -/
  | type
  /-- The name, in a field whose type has already been read. -/
  | name (fieldType : String)
  deriving DecidableEq, Repr

/-- The wording of the part that is missing. -/
def FieldSlot.noun : FieldSlot → String
  | type => "field type"
  | name _ => "field name"

/-- The wording of the place where the part is missing. -/
def FieldSlot.place : FieldSlot → String
  | type => "message field"
  | name fieldType => "field of type " ++ fieldType

/-- The cause of a failed parse. -/
inductive ParseError where
  /-- The text does not split into tokens. -/
  | lexical (line : Nat) (fault : LexicalFault)
  /-- The token at `index` of the stream does not fit the construct `context`. -/
  | unexpectedToken (found : Token) (context : String) (index : Nat)
  /-- The tokens end at `index` where `context` needs `expected`: at the end of
  the stream, or at the token that closes the enclosing block. -/
  | unterminated (expected context : String) (index : Nat)
  /-- A field declaration ends before one of its parts. -/
  | missing (slot : FieldSlot)
  /-- A name is given a second time in its scope. -/
  | duplicate (kind : Binding) (name : String)
  /-- A number slot does not hold a numeral of the slot's interval. -/
  | invalidNumber (literal : Token) (context : String)
  /-- The language revision is not one that is known. -/
  | unknownVersion (found : Token)
  /-- The language revision is declared after another statement. -/
  | versionNotFirst
  /-- An extension field has a number that its target does not open. -/
  | extensionOutOfRange (message : String) (tag : Nat)
  /-- The option `optimize_for` has a value that is not one of its three. -/
  | invalidOptimizeFor (found : Token)
  /-- Blocks nest deeper than the limit. -/
  | tooDeep (limit : Nat)
  deriving DecidableEq, Repr

/-- The text of an error. -/
def ParseError.message : ParseError → String
  | lexical line fault =>
      "syntax error at line " ++ toString line ++ ": " ++ fault.message
  | unexpectedToken found context index =>
      "unexpected token '" ++ found ++ "' in " ++ context ++ " at token " ++ toString index
  | unterminated expected context index =>
      "no closing " ++ expected ++ " for " ++ context ++ " at token " ++ toString index
  | missing slot =>
      "missing " ++ slot.noun ++ " in " ++ slot.place
  | duplicate kind name =>
      "duplicate " ++ kind.noun ++ " '" ++ name ++ "'"
  | invalidNumber literal context =>
      "invalid number '" ++ literal ++ "' in " ++ context
  | unknownVersion found =>
      "expected protobuf syntax version but found " ++ found
  | versionNotFirst =>
      "protobuf syntax version should be first thing in file"
  | extensionOutOfRange message tag =>
      message ++ " does not declare " ++ toString tag ++ " as an extension number"
  | invalidOptimizeFor found =>
      "unexpected value for option optimize_for: " ++ found
  | tooDeep limit =>
      "declarations nested deeper than " ++ toString limit ++ " levels"

end ProtoIdl
