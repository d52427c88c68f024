import ProtoIdl.Parser.Loop
import ProtoIdl.Schema.Range
import ProtoIdl.Token.Keyword

/-!
# Number ranges and reserved entries

A range is a number, or two numbers with `to` between them; `max` stands for the
largest number of the scope.  The lists end with a semicolon.
-/

namespace ProtoIdl
namespace Grammar

open ProtoIdl.Parser

/-- Read the upper end of a range: what follows `to`, or else its lower end. -/
def rangeEnd (interval : Numeral.Interval) (first max : Int) (expected context : String) :
    Parser Int := do
  if ← eat Keyword.upTo.text then
    let literal ← next expected context
    if literal = Keyword.max.text then return max
    else numeral interval literal context
  else return first

/-- Read one extension range. -/
def extensionRange : Parser ExtensionRange := do
  let literal ← next "extension range" "extensions"
  let first ← numeral Numeral.fieldNumbers literal "extensions"
  let last ← rangeEnd Numeral.fieldNumbers first maxFieldNumber "extension range end" "extensions"
  return ⟨first.toNat, last.toNat⟩

/-- Read what follows the keyword of an `extensions` statement and add the ranges to
those that are there. -/
def extensionsRest (ranges : List ExtensionRange) : Parser (List ExtensionRange) :=
  commaList ";" "extensions"
    (fun ranges => do
      let range ← extensionRange
      return ranges ++ [range])
    ranges

/-- Read one reserved entry, a quoted name or a range up to at most `max`. -/
def reservedEntry (max : Int) : Parser Reserved := do
  let literal ← next "reserved entry" "reserved"
  if literal.startsQuoted then return .name literal.unquote
  else
    let first ← numeral Numeral.reservedNumbers literal "reserved"
    let last ← rangeEnd Numeral.reservedNumbers first max "reserved range end" "reserved"
    return .range first last

/-- Read what follows the keyword of a `reserved` statement and add the entries to
those that are there. -/
def reservedRest (max : Int) (reserved : List Reserved) : Parser (List Reserved) :=
  commaList ";" "reserved"
    (fun reserved => do
      let entry ← reservedEntry max
      return reserved ++ [entry])
    reserved

end Grammar
end ProtoIdl
