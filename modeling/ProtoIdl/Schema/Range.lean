/-!
# Number ranges

The numbers that a message opens to `extend` blocks, and the numbers and names that a
message or an enum keeps from being used.
-/

namespace ProtoIdl

/-- The largest field number: what `max` means in a message. -/
def maxFieldNumber : Nat :=
  0x1FFFFFFF

/-- The largest enum number: what `max` means in an enum. -/
def maxEnumNumber : Nat :=
  0x7FFFFFFF

/-- An interval of field numbers that is open to `extend` blocks, both ends
included. -/
structure ExtensionRange where
  first : Nat
  last : Nat
  deriving DecidableEq, Repr

/-- Whether a field number lies in the range. -/
def ExtensionRange.contains (range : ExtensionRange) (tag : Nat) : Bool :=
  range.first ≤ tag && tag ≤ range.last

/-- A number interval or a name that may not be used. -/
inductive Reserved where
  /-- Both ends are included; a single number is an interval of one. -/
  | range (first last : Int)
  | name (text : String)
  deriving DecidableEq, Repr

end ProtoIdl
