import ProtoIdl.Schema.Path

/-!
# Resolving message names

A name with a leading dot is fully qualified.  Any other name is tried inside each of
the enclosing messages, the innermost first, and then at the top level.  Both kinds
may start with the package of the file.  A name without dots that is still not found
stands for the first message of that name in depth-first order.
-/

namespace ProtoIdl

/-! ## Dotted names -/

/-- The parts of a dotted name; there is always at least one. -/
def nameParts : List Char → List (List Char)
  | [] => [[]]
  | c :: rest =>
      if c = '.' then [] :: nameParts rest
      else
        match nameParts rest with
        | [] => [[c]]
        | part :: parts => (c :: part) :: parts

/-- The parts of a dotted name, as strings. -/
def splitName (name : List Char) : List String :=
  (nameParts name).map String.ofList

/-! ## Searching -/

namespace Message

/-- The first message of a given name in a list, with its index. -/
def firstNamed? (name : String) : List Message → Option (Nat × Message)
  | [] => none
  | message :: rest =>
      if message.name = name then some (0, message)
      else (firstNamed? name rest).map fun found => (found.1 + 1, found.2)

/-- Follow a list of names down from the messages of one level. -/
def follow? : List String → List Message → Option MessagePath
  | [], _ => some []
  | name :: names, level =>
      (firstNamed? name level).bind fun found =>
        (follow? names found.2.messages).map fun path => found.1 :: path

mutual

/-- The path to the first message of a given name, this one included, in depth-first
order. -/
def search? (name : String) : Message → Option MessagePath
  | ⟨own, messages, _, _, _, _, _, _, _⟩ =>
      if own = name then some [] else searchLevel? name messages

/-- The path to the first message of a given name in a list or below it. -/
def searchLevel? (name : String) : List Message → Option MessagePath
  | [] => none
  | message :: rest =>
      match search? name message with
      | some path => some (0 :: path)
      | none =>
          match searchLevel? name rest with
          | some (index :: path) => some ((index + 1) :: path)
          | _ => none

end

end Message

namespace Schema

/-! ## Resolution -/

/-- A name without the package of the file in front, if it has that. -/
def stripPackage? (schema : Schema) (name : List Char) : Option (List Char) :=
  match schema.package with
  | none => none
  | some package =>
      if (package.toList ++ ['.']).isPrefixOf name then
        some (name.drop (package.toList.length + 1))
      else none

/-- Follow a dotted name from the top level. -/
def followFromTop? (schema : Schema) (name : List Char) : Option MessagePath :=
  Message.follow? (splitName name) schema.messages

/-- Follow a dotted name from each of the messages that enclose it, the innermost
first, and from the top level. -/
def followFromScope? (schema : Schema) (scope : List String) (name : List Char) :
    Option MessagePath :=
  (List.range (scope.length + 1)).reverse.findSome? fun depth =>
    Message.follow? (scope.take depth ++ splitName name) schema.messages

/-- The path to the message that `name` stands for inside the messages `scope`, which
are listed from the outermost on. -/
def locate? (schema : Schema) (scope : List String) (name : String) : Option MessagePath :=
  match name.toList with
  | '.' :: qualified =>
      schema.followFromTop? ((schema.stripPackage? qualified).getD qualified)
  | chars =>
      (schema.followFromScope? scope chars).or <|
        ((schema.stripPackage? chars).bind schema.followFromTop?).or <|
          if chars.contains '.' then none
          else Message.searchLevel? name schema.messages

/-- The message that a name stands for inside the messages `scope`. -/
def resolve? (schema : Schema) (scope : List String) (name : String) : Option Message :=
  (schema.locate? scope name).bind schema.at?

/-- The message that a name stands for at the top level. -/
def find? (schema : Schema) (name : String) : Option Message :=
  schema.resolve? [] name

end Schema
end ProtoIdl
