import ProtoIdl.Error

/-!
# Options

An option map lists bindings in the order in which their keys first came.  A key
is bound once to a value, or it collects blocks; `OptionMap.bind` and
`OptionMap.pushBlock` are the only ways to add a binding, and neither gives a key
a second binding.
-/

namespace ProtoIdl

mutual

/-- The value of an option. -/
inductive OptionValue where
  | bool (value : Bool)
  /-- Any other literal, without its quotes. -/
  | text (value : String)
  /-- One braced map, given as a value. -/
  | map (value : OptionMap)
  /-- The blocks given under one key, in order. -/
  | list (blocks : List OptionMap)

/-- The bindings of one scope, in order of first occurrence. -/
structure OptionMap where
  entries : List (String × OptionValue)

end

namespace OptionValue

/-- The truth value, of a boolean. -/
def asBool? : OptionValue → Option Bool
  | bool value => some value
  | _ => none

/-- The text, of a text. -/
def asText? : OptionValue → Option String
  | text value => some value
  | _ => none

/-- The map, of a single map. -/
def asMap? : OptionValue → Option OptionMap
  | map value => some value
  | _ => none

/-- The blocks, of a list of blocks. -/
def asList? : OptionValue → Option (List OptionMap)
  | list blocks => some blocks
  | _ => none

/-- What a literal stands for: `true` and `false` are booleans, and all else is
text without the quotes at its ends. -/
def ofLiteral (literal : Token) : OptionValue :=
  if literal = "true" then bool true
  else if literal = "false" then bool false
  else text literal.unquote

end OptionValue

namespace OptionMap

/-- The map without bindings. -/
def empty : OptionMap :=
  ⟨[]⟩

instance : EmptyCollection OptionMap :=
  ⟨empty⟩

/-- The keys, in order of first occurrence. -/
def keys (options : OptionMap) : List String :=
  options.entries.map Prod.fst

/-- The number of bindings. -/
def size (options : OptionMap) : Nat :=
  options.entries.length

/-- Whether there are no bindings. -/
def isEmpty (options : OptionMap) : Bool :=
  options.entries.isEmpty

/-- The value of a key. -/
def get? (options : OptionMap) (key : String) : Option OptionValue :=
  options.entries.lookup key

/-- Whether a key has a value. -/
def contains (options : OptionMap) (key : String) : Bool :=
  (options.get? key).isSome

/-- Add a binding at the end. -/
def append (options : OptionMap) (key : String) (value : OptionValue) : OptionMap :=
  ⟨options.entries ++ [(key, value)]⟩

/-- Give a key that is present another value, in its place. -/
def replace (options : OptionMap) (key : String) (value : OptionValue) : OptionMap :=
  ⟨options.entries.map fun entry => if entry.1 = key then (entry.1, value) else entry⟩

/-- Bind a key that is not present to a value. -/
def bind (options : OptionMap) (key : String) (value : OptionValue) :
    Except ParseError OptionMap :=
  if options.contains key then .error (.duplicate .option key)
  else .ok (options.append key value)

/-- Add a block to those of a key; a key that holds a single value takes none. -/
def pushBlock (options : OptionMap) (key : String) (block : OptionMap) :
    Except ParseError OptionMap :=
  match options.get? key with
  | none => .ok (options.append key (.list [block]))
  | some (.list blocks) => .ok (options.replace key (.list (blocks ++ [block])))
  | some _ => .error (.duplicate .optionMapKey key)

/-- A new binding comes last. -/
@[simp] theorem keys_append (options : OptionMap) (key : String) (value : OptionValue) :
    (options.append key value).keys = options.keys ++ [key] := by
  simp [keys, append]

/-- Another value leaves the keys as they are. -/
@[simp] theorem keys_replace (options : OptionMap) (key : String) (value : OptionValue) :
    (options.replace key value).keys = options.keys := by
  simp only [keys, replace, List.map_map]
  apply List.map_congr_left
  intro entry _
  simp only [Function.comp]
  split <;> rfl

end OptionMap
end ProtoIdl
