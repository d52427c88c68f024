/-!
# Integer numerals

A numeral is an optional sign followed by decimal digits, or by `0x` or `0X` and
hexadecimal digits; at least one digit is needed.  `Numeral.value?` gives the
mathematical value, of any size; `Numeral.within?` keeps it only inside the
interval of the slot the numeral was written for.
-/

namespace ProtoIdl
namespace Numeral

/-- The value of one digit: `0` to `9`, then `a` to `f` in either case. -/
def digitValue? (c : Char) : Option Nat :=
  if '0' ≤ c ∧ c ≤ '9' then some (c.toNat - '0'.toNat)
  else if 'a' ≤ c ∧ c ≤ 'f' then some (c.toNat - 'a'.toNat + 10)
  else if 'A' ≤ c ∧ c ≤ 'F' then some (c.toNat - 'A'.toNat + 10)
  else none

/-- Continue a number with further digits, the most significant first. -/
def extendBy? (radix : Nat) : Nat → List Char → Option Nat
  | value, [] => some value
  | value, c :: rest =>
      match digitValue? c with
      | none => none
      | some digit =>
          if digit < radix then extendBy? radix (value * radix + digit) rest else none

/-- The number that one or more digits stand for. -/
def ofDigits? (radix : Nat) : List Char → Option Nat
  | [] => none
  | c :: rest => extendBy? radix 0 (c :: rest)

/-- The value of a numeral without its sign. -/
def magnitude? : List Char → Option Nat
  | '0' :: 'x' :: digits => ofDigits? 16 digits
  | '0' :: 'X' :: digits => ofDigits? 16 digits
  | digits => ofDigits? 10 digits

/-- The value of a numeral with at most one sign in front. -/
def value? : List Char → Option Int
  | '-' :: rest => (magnitude? rest).map fun n => -(n : Int)
  | '+' :: rest => (magnitude? rest).map fun n => (n : Int)
  | rest => (magnitude? rest).map fun n => (n : Int)

/-- A closed interval of integers. -/
structure Interval where
  least : Int
  greatest : Int
  deriving DecidableEq, Repr

/-- Whether an integer lies in the interval. -/
def Interval.contains (interval : Interval) (n : Int) : Bool :=
  interval.least ≤ n && n ≤ interval.greatest

/-- Field numbers and the bounds of extension ranges take 32 bits. -/
def fieldNumbers : Interval := ⟨0, 0xFFFFFFFF⟩

/-- Enum numbers take 32 bits and a sign. -/
def enumNumbers : Interval := ⟨-0x80000000, 0x7FFFFFFF⟩

/-- The bounds of reserved ranges have a magnitude of 63 bits. -/
def reservedNumbers : Interval := ⟨-0x7FFFFFFFFFFFFFFF, 0x7FFFFFFFFFFFFFFF⟩

/-- The value of a numeral that lies in `interval`. -/
def within? (interval : Interval) (literal : String) : Option Int :=
  (value? literal.toList).filter interval.contains

end Numeral
end ProtoIdl
