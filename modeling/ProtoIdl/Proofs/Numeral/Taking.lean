import ProtoIdl.Proofs.Numeral.Spelling
import ProtoIdl.Proofs.Parser.Reading

/-!
# Taking a number

`parser.TakesNumber` says what a parser does with a token that stands in the place of a number:
it records the integer that the token denotes, if the integer lies in the interval of the place,
and reports the token otherwise.  A parser takes a number when it reads what stands before the
number, and reads what stands after it whatever the number is.
-/

namespace ProtoIdl
namespace Parser

variable {levels : Nat} {interval : Numeral.Interval} {literal : Token} {context : String}
  {ahead middle later : List Token}

/-- With `ahead` in front of it the parser takes the literal for a number of the interval:
`record` says what it answers. -/
structure TakesNumber (parser : Parser α) (levels : Nat) (interval : Numeral.Interval)
    (literal : Token) (context : String) (ahead : List Token) (record : Int → α)
    (later : List Token) : Prop where
  /-- The number is recorded. -/
  reads : ∀ n, Numeral.DenotesIn interval literal n →
    parser.Reads levels ahead (record n) later
  /-- What denotes no number of the interval is reported. -/
  fails : (∀ n, ¬Numeral.DenotesIn interval literal n) →
    parser.FailsOn levels ahead (.invalidNumber literal context)

namespace TakesNumber

/-- A member is accepted just when the literal denotes a number of the interval. -/
theorem accepts_iff {parser : Parser α} {record : Int → α}
    (hTakes : parser.TakesNumber levels interval literal context ahead record later)
    {cursor : Cursor} (hRest : cursor.rest = ahead)
    (hLevels : cursor.depth + levels ≤ cursor.limit) :
    (∃ value after, parser.run cursor = .ok value after) ↔
      ∃ n, Numeral.DenotesIn interval literal n := by
  constructor
  · rintro ⟨value, after, hRun⟩
    by_contra hNone
    obtain ⟨stop, hFails⟩ := hTakes.fails (not_exists.mp hNone) cursor hRest hLevels
    rw [hRun] at hFails
    cases hFails
  · rintro ⟨n, hNumber⟩
    obtain ⟨after, hRun, -⟩ := hTakes.reads n hNumber cursor hRest hLevels
    exact ⟨record n, after, hRun⟩

/-- What reads a numeral takes a number. -/
theorem numeral {record : Int → α} {next : Int → Parser α}
    (hNext : ∀ n, Numeral.DenotesIn interval literal n →
      (next n).Reads levels ahead (record n) later) :
    (Parser.numeral interval literal context >>= next).TakesNumber levels interval literal context
      ahead record later where
  reads n hNumber := by
    have hWithin := Numeral.denotesIn_iff.mp hNumber
    exact .bind (reads_numeral hWithin context) (hNext n hNumber)
  fails hNone := by
    have hWithin : Numeral.within? interval literal = none := by
      apply Option.eq_none_iff_forall_ne_some.mpr
      intro n hNumber
      exact hNone n (Numeral.denotesIn_iff.mpr hNumber)
    rw [Parser.numeral, hWithin]
    exact (failsOn_fail _).bind next

/-- What comes to taking a number takes it. -/
theorem of_goesOn {first second : Parser α} {record : Int → α}
    (hFirst : first.GoesOn levels ahead second middle)
    (hSecond : second.TakesNumber levels interval literal context middle record later) :
    first.TakesNumber levels interval literal context ahead record later where
  reads n hNumber := hFirst.reads (hSecond.reads n hNumber)
  fails hNone := hFirst.failsOn (hSecond.fails hNone)

/-- What has been read stands before the number. -/
theorem bind_reads {first : Parser α} {second : α → Parser β} {value : α} {record : Int → β}
    (hFirst : first.Reads levels ahead value middle)
    (hSecond : (second value).TakesNumber levels interval literal context middle record later) :
    (first >>= second).TakesNumber levels interval literal context ahead record later :=
  .of_goesOn (.bind hFirst) hSecond

/-- What follows the number is read whatever number it is. -/
theorem bind {first : Parser α} {second : α → Parser β} {record : Int → α} {final : Int → β}
    (hFirst : first.TakesNumber levels interval literal context ahead record middle)
    (hSecond : ∀ n, Numeral.DenotesIn interval literal n →
      (second (record n)).Reads levels middle (final n) later) :
    (first >>= second).TakesNumber levels interval literal context ahead final later where
  reads n hNumber := (hFirst.reads n hNumber).bind (hSecond n hNumber)
  fails hNone := (hFirst.fails hNone).bind second

end TakesNumber

end Parser
end ProtoIdl
