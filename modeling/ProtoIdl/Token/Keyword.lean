import ProtoIdl.Token

/-!
# Keywords

The words that the grammar dispatches on.  They are ordinary words elsewhere: a
field or a type may be named `stream`.
-/

namespace ProtoIdl

/-- A word with a role in the grammar. -/
inductive Keyword where
  | package
  | syntaxVersion
  | message
  | enum
  | option
  | importFile
  | extend
  | service
  | map
  | repeated
  | required
  | optional
  | oneof
  | extensions
  | reserved
  | function
  | rpc
  | returns
  | stream
  | upTo
  | max
  deriving DecidableEq, Repr

namespace Keyword

/-- The spelling of a keyword. -/
def text : Keyword → Token
  | package => "package"
  | syntaxVersion => "syntax"
  | message => "message"
  | enum => "enum"
  | option => "option"
  | importFile => "import"
  | extend => "extend"
  | service => "service"
  | map => "map"
  | repeated => "repeated"
  | required => "required"
  | optional => "optional"
  | oneof => "oneof"
  | extensions => "extensions"
  | reserved => "reserved"
  | function => "function"
  | rpc => "rpc"
  | returns => "returns"
  | stream => "stream"
  | upTo => "to"
  | max => "max"

/-- Every keyword. -/
def all : List Keyword :=
  [package, syntaxVersion, message, enum, option, importFile, extend, service, map,
    repeated, required, optional, oneof, extensions, reserved, function, rpc,
    returns, stream, upTo, max]

/-- The keyword that a token spells. -/
def ofToken? (token : Token) : Option Keyword :=
  all.find? fun keyword => keyword.text == token

/-- A keyword is read back from its spelling. -/
@[simp] theorem ofToken?_text (keyword : Keyword) : ofToken? keyword.text = some keyword := by
  cases keyword <;> decide

/-- Only its own spelling gives a keyword. -/
theorem text_of_ofToken? {token : Token} {keyword : Keyword}
    (hRead : ofToken? token = some keyword) : keyword.text = token := by
  have hFound := List.find?_some hRead
  simpa using hFound

end Keyword
end ProtoIdl
