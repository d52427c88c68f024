import ProtoIdl.Text.Blank

/-!
# Tokens

A token is the text of one lexical unit: a punctuation mark, a word, a quoted
string, or a line comment.  This module classifies tokens and takes the payload
out of comments and of quoted strings.
-/

namespace ProtoIdl

/-- One lexical unit, as text. -/
abbrev Token := String

namespace Token

/-! ## Punctuation -/

/-- The token that opens a block. -/
def openBrace : Token := "\x7b"

/-- The token that closes a block. -/
def closeBrace : Token := "\x7d"

/-- The characters that are tokens of their own. -/
def marks : List Char :=
  ['\x7b', '\x7d', '(', ')', '<', '>', '[', ']', ',', ';', '=', ':']

/-- Whether a character is a token of its own. -/
def isMark (c : Char) : Bool :=
  marks.contains c

/-- Whether a token is a punctuation mark. -/
def isPunctuation (token : Token) : Bool :=
  match token.toList with
  | [c] => isMark c
  | _ => false

/-! ## Comments -/

/-- Whether a token is a line comment. -/
def isComment (token : Token) : Bool :=
  match token.toList with
  | '/' :: '/' :: _ => true
  | _ => false

/-- The text of a comment: what follows its first three characters, with every
plus sign read as a space. -/
def commentBody (token : Token) : String :=
  String.ofList ((token.toList.drop 3).map fun c => if c = '+' then ' ' else c)

/-- Whether a token can be a name: neither punctuation nor a comment. -/
def isWordLike (token : Token) : Bool :=
  !token.isPunctuation && !token.isComment

/-- The bodies of the comment run that starts at `index`, and the index of the
first token after it. -/
def collectComments (tokens : List Token) (index : Nat) : List String × Nat :=
  let run := (tokens.drop index).takeWhile isComment
  (run.map commentBody, index + run.length)

/-! ## Quotes -/

/-- The two characters that delimit strings. -/
def isQuote (c : Char) : Bool :=
  c == '"' || c == '\''

/-- Whether a token begins with a quote. -/
def startsQuoted (token : Token) : Bool :=
  match token.toList with
  | c :: _ => isQuote c
  | [] => false

/-- The text of a literal without the quotes at its two ends. -/
def unquote (token : Token) : String :=
  String.ofList (Text.trimWith isQuote token.toList)

/-- Whether a token opens a string and does not close it: it begins with a quote
and holds no other. -/
def opensQuote (token : Token) : Bool :=
  match token.toList with
  | c :: rest => isQuote c && !rest.any isQuote
  | [] => false

/-- Whether a token closes a string: its first quote is its last character. -/
def closesQuote (token : Token) : Bool :=
  match token.toList.dropWhile fun c => !isQuote c with
  | [_] => true
  | _ => false

end Token
end ProtoIdl
