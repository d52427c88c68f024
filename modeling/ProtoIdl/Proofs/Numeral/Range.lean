import ProtoIdl.Proofs.Numeral.Taking
import ProtoIdl.Proofs.RoundTrip.Enum

/-!
# Places for numbers in ranges

An extension range and a reserved range are one number, or two with `to` between them, and they
stand in lists with commas.  Each number of a range is taken in its place, wherever in a list the
range stands.
-/

namespace ProtoIdl

/-- What stands for a number is no quoted text. -/
theorem Numeral.not_startsQuoted {interval : Numeral.Interval} {literal : Token} {n : Int}
    (hNumber : Numeral.within? interval literal = some n) : literal.startsQuoted = false := by
  by_contra hQuoted
  rw [Bool.not_eq_false] at hQuoted
  rw [within?, Token.value?_of_startsQuoted hQuoted] at hNumber
  cases hNumber

namespace Parser

/-! ## Ranges -/

/-- A token is the upper end of a range: a number of the interval, or the word for the largest
number of the scope. -/
def WrittenEnd (interval : Numeral.Interval) (max : Int) (token : Token) (n : Int) : Prop :=
  (token = Keyword.max.text ∧ n = max) ∨ Numeral.DenotesIn interval token n

/-- A range is one number, or two with a word between them. -/
inductive WrittenRange (interval : Numeral.Interval) (max : Int) : List Token → Int → Int → Prop
  | single {token : Token} {n : Int} (hNumber : Numeral.DenotesIn interval token n) :
      WrittenRange interval max [token] n n
  | pair {lower upper : Token} {first last : Int}
      (hFirst : Numeral.DenotesIn interval lower first)
      (hLast : WrittenEnd interval max upper last) :
      WrittenRange interval max [lower, Keyword.upTo.text, upper] first last

/-- A place for the literal in a range, with the two ends that a number in this place gives. -/
inductive RangeSlot (interval : Numeral.Interval) (max : Int) (literal : Token) :
    List Token → (Int → Int × Int) → Prop
  | single : RangeSlot interval max literal [literal] fun n => (n, n)
  | lower {upper : Token} {last : Int} (hLast : WrittenEnd interval max upper last) :
      RangeSlot interval max literal [literal, Keyword.upTo.text, upper] fun n => (n, last)
  | upper {lower : Token} {first : Int} (hFirst : Numeral.DenotesIn interval lower first)
      (hLiteral : literal ≠ Keyword.max.text) :
      RangeSlot interval max literal [lower, Keyword.upTo.text, literal] fun n => (first, n)

end Parser

namespace Grammar

open ProtoIdl.Parser

variable {levels : Nat} {interval : Numeral.Interval} {max : Int} {literal : Token}
  {context expected : String} {tokens later : List Token}

/-- The keyword between the ends of a range does not come next. -/
def NoRangeEnd (tokens : List Token) : Prop :=
  tokens.head? ≠ some Keyword.upTo.text

/-- The word for the largest number denotes none. -/
theorem ne_max_of_denotesIn {token : Token} {n : Int}
    (hNumber : Numeral.DenotesIn interval token n) : token ≠ Keyword.max.text := by
  rintro rfl
  have hWithin := Numeral.denotesIn_iff.mp hNumber
  have hNone : Numeral.value? Keyword.max.text.toList = none := by decide
  rw [Numeral.within?, hNone] at hWithin
  cases hWithin

theorem reads_rangeEnd_none {first : Int} (hLater : NoRangeEnd later) :
    (rangeEnd interval first max expected context).Reads levels later first later := by
  refine .bind (reads_eat_other hLater) ?_
  rw [if_neg Bool.false_ne_true]
  exact .pure first

theorem reads_rangeEnd_some {first last : Int} {upper : Token}
    (hLast : WrittenEnd interval max upper last) :
    (rangeEnd interval first max expected context).Reads levels
      (Keyword.upTo.text :: upper :: later) last later := by
  refine .bind (reads_eat _) ?_
  rw [if_pos rfl]
  refine .bind (reads_next _ _ _) ?_
  rcases hLast with ⟨rfl, rfl⟩ | hNumber
  · rw [if_pos rfl]
    exact .pure _
  · rw [if_neg (ne_max_of_denotesIn hNumber)]
    exact reads_numeral (Numeral.denotesIn_iff.mp hNumber) context

/-- Read a range, of which the first token has been taken. -/
def rangeRest (interval : Numeral.Interval) (max : Int) (expected context : String)
    (first : Token) : Parser (Int × Int) := do
  let lower ← numeral interval first context
  let upper ← rangeEnd interval lower max expected context
  return (lower, upper)

theorem reads_rangeRest {first last : Int} (hRange : WrittenRange interval max tokens first last)
    (hLater : NoRangeEnd later) (levels : Nat) (expected context : String) :
    ∃ token rest, tokens = token :: rest ∧ Numeral.DenotesIn interval token first ∧
      (rangeRest interval max expected context token).Reads levels (rest ++ later) (first, last)
        later := by
  cases hRange with
  | @single token n hNumber =>
      refine ⟨token, [], rfl, hNumber, ?_⟩
      exact .bind (reads_numeral (Numeral.denotesIn_iff.mp hNumber) _) <|
        .bind (reads_rangeEnd_none hLater) (.pure _)
  | @pair lower upper _ _ hFirst hLast =>
      refine ⟨lower, [Keyword.upTo.text, upper], rfl, hFirst, ?_⟩
      exact .bind (reads_numeral (Numeral.denotesIn_iff.mp hFirst) _) <|
        .bind (reads_rangeEnd_some hLast) (.pure _)

/-- A range takes the number in its place. -/
theorem takesNumber_rangeRest {record : Int → Int × Int}
    (hSlot : RangeSlot interval max literal tokens record) (hLater : NoRangeEnd later)
    (levels : Nat) (expected context : String) :
    ∃ token rest, tokens = token :: rest ∧
      (token = literal ∨ ∃ n, Numeral.DenotesIn interval token n) ∧
      (rangeRest interval max expected context token).TakesNumber levels interval literal context
        (rest ++ later) record later := by
  cases hSlot with
  | single =>
      refine ⟨literal, [], rfl, .inl rfl, .numeral fun n hNumber => ?_⟩
      exact .bind (reads_rangeEnd_none hLater) (.pure _)
  | @lower upper last hLast =>
      refine ⟨literal, [Keyword.upTo.text, upper], rfl, .inl rfl, .numeral fun n hNumber => ?_⟩
      exact .bind (reads_rangeEnd_some hLast) (.pure _)
  | @upper lower first hFirst hLiteral =>
      refine ⟨lower, [Keyword.upTo.text, literal], rfl, .inr ⟨first, hFirst⟩, ?_⟩
      refine .bind_reads (reads_numeral (Numeral.denotesIn_iff.mp hFirst) _) ?_
      -- the upper end is the literal, which is not the word for the largest number
      have hEnd : (rangeEnd interval first max expected context).TakesNumber levels interval literal
          context (Keyword.upTo.text :: literal :: later) (fun n => n) later := by
        refine .bind_reads (reads_eat _) ?_
        rw [if_pos rfl]
        refine .bind_reads (reads_next _ _ _) ?_
        rw [if_neg hLiteral, ← bind_pure (numeral interval literal context)]
        exact .numeral fun n _ => .pure n
      exact hEnd.bind fun n _ => .pure _

/-! ## Lists of entries -/

/-- Entries that stand before another one in a list, each with a comma behind it. -/
inductive EntriesBefore (Written : List Token → α → Prop) : List Token → List α → Prop
  | nil : EntriesBefore Written [] []
  | cons {tokens rest : List Token} {entry : α} {entries : List α} (hEntry : Written tokens entry)
      (hRest : EntriesBefore Written rest entries) :
      EntriesBefore Written (tokens ++ "," :: rest) (entry :: entries)

/-- Entries that end a list, each with a comma before it, and the semicolon after them. -/
inductive EntriesAfter (Written : List Token → α → Prop) : List Token → List α → Prop
  | nil : EntriesAfter Written [";"] []
  | cons {tokens rest : List Token} {entry : α} {entries : List α} (hEntry : Written tokens entry)
      (hRest : EntriesAfter Written rest entries) :
      EntriesAfter Written ("," :: (tokens ++ rest)) (entry :: entries)

theorem EntriesAfter.commaFirst {Written : List Token → α → Prop} {entries : List α}
    (hAfter : EntriesAfter Written tokens entries) (later : List Token) :
    CommaFirst ";" (tokens ++ later) := by
  cases hAfter with
  | nil => exact ⟨";", later, rfl, .inr rfl⟩
  | cons hEntry hRest => exact ⟨",", _, rfl, .inl rfl⟩

/-- Read entries with commas between them, and add them to those that are there. -/
def entryList (context : String) (parse : Parser α) (entries : List α) : Parser (List α) :=
  commaList ";" context (fun entries => do
    let entry ← parse
    return entries ++ [entry]) entries

section Lists

variable {Written : List Token → α → Prop} {parse : Parser α}

/-- The entries after the first are read to the end of the list. -/
theorem reads_entriesAfter {after : List Token} {entries : List α}
    (hParse : ∀ tokens entry later, Written tokens entry → CommaFirst ";" later →
      parse.Reads levels (tokens ++ later) entry later)
    (hAfter : EntriesAfter Written after entries) (context : String) (later : List Token)
    (done : List α) :
    (loop (commaHead ";" context) (fun done _ => parse >>= fun entry => pure (done ++ [entry]))
      done).Reads levels (after ++ later) (done ++ entries) later := by
  induction hAfter generalizing done with
  | nil =>
      rw [List.append_nil]
      exact reads_loop_done (reads_commaHead_done (by decide) context)
  | @cons tokens rest entry entries hEntry hRest ih =>
      have hFirst := hParse tokens entry (rest ++ later) hEntry (hRest.commaFirst later)
      have hTokens : "," :: (tokens ++ rest) ++ later = "," :: (tokens ++ (rest ++ later)) := by
        simp
      have hEntries : done ++ entry :: entries = done ++ [entry] ++ entries := by simp
      rw [hTokens, hEntries]
      exact reads_loop_item (reads_commaHead ";" context) (.bind hFirst (.pure _))
        (ih (done ++ [entry]))

/-- A list takes the number of one of its entries. -/
theorem takesNumber_entryList {before slot after : List Token} {first last : List α}
    {record : Int → α}
    (hParse : ∀ tokens entry later, Written tokens entry → CommaFirst ";" later →
      parse.Reads levels (tokens ++ later) entry later)
    (hBefore : EntriesBefore Written before first) (hAfter : EntriesAfter Written after last)
    (hSlot : ∀ later, CommaFirst ";" later →
      parse.TakesNumber levels interval literal context (slot ++ later) record later)
    (noun : String) (done : List α) (later : List Token) :
    (entryList noun parse done).TakesNumber levels interval literal context
      (before ++ (slot ++ (after ++ later))) (fun n => done ++ (first ++ record n :: last))
      later := by
  unfold entryList commaList
  induction hBefore generalizing done with
  | nil =>
      refine .bind ((hSlot _ (hAfter.commaFirst later)).bind fun n _ => .pure _) fun n _ => ?_
      have hRest := reads_entriesAfter hParse hAfter noun later (done ++ [record n])
      simpa using hRest
  | @cons tokens rest entry entries hEntry hRest ih =>
      have hTokens : tokens ++ "," :: rest ++ (slot ++ (after ++ later)) =
          tokens ++ "," :: (rest ++ (slot ++ (after ++ later))) := by simp
      have hDone : ∀ n, done ++ (entry :: entries ++ record n :: last) =
          done ++ [entry] ++ (entries ++ record n :: last) := by simp
      simp only [hTokens, hDone]
      refine .bind_reads (.bind (hParse tokens entry _ hEntry ⟨",", _, rfl, .inl rfl⟩) (.pure _)) ?_
      rw [loop_eq]
      exact .bind_reads (reads_commaHead ";" noun) (ih (done ++ [entry]))

end Lists

/-! ## Extension ranges -/

theorem noRangeEnd_of_commaFirst (hLater : CommaFirst ";" later) : NoRangeEnd later := by
  obtain ⟨token, rest, rfl, rfl | rfl⟩ := hLater
  · change some "," ≠ some Keyword.upTo.text
    decide
  · change some ";" ≠ some Keyword.upTo.text
    decide

theorem extensionRange_eq :
    extensionRange = next "extension range" "extensions" >>= fun token =>
      rangeRest Numeral.fieldNumbers maxFieldNumber "extension range end" "extensions" token >>=
        fun ends => pure ⟨ends.1.toNat, ends.2.toNat⟩ := by
  simp only [extensionRange, rangeRest, bind_assoc, pure_bind]

/-- An extension range as it is written. -/
def WrittenExtension (tokens : List Token) (range : ExtensionRange) : Prop :=
  ∃ first last : Int, range = ⟨first.toNat, last.toNat⟩ ∧
    WrittenRange Numeral.fieldNumbers maxFieldNumber tokens first last

theorem reads_extensionRange {range : ExtensionRange} (hRange : WrittenExtension tokens range)
    (hLater : CommaFirst ";" later) :
    extensionRange.Reads levels (tokens ++ later) range later := by
  obtain ⟨first, last, rfl, hWritten⟩ := hRange
  obtain ⟨token, rest, rfl, -, hReads⟩ :=
    reads_rangeRest hWritten (noRangeEnd_of_commaFirst hLater) levels "extension range end"
      "extensions"
  rw [extensionRange_eq]
  exact .bind (reads_next token _ _) (.bind hReads (.pure _))

theorem takesNumber_extensionRange {record : Int → Int × Int}
    (hSlot : RangeSlot Numeral.fieldNumbers maxFieldNumber literal tokens record)
    (hLater : CommaFirst ";" later) :
    extensionRange.TakesNumber levels Numeral.fieldNumbers literal "extensions" (tokens ++ later)
      (fun n => ⟨(record n).1.toNat, (record n).2.toNat⟩) later := by
  obtain ⟨token, rest, rfl, -, hTakes⟩ :=
    takesNumber_rangeRest hSlot (noRangeEnd_of_commaFirst hLater) levels "extension range end"
      "extensions"
  rw [extensionRange_eq]
  exact .bind_reads (reads_next token _ _) (hTakes.bind fun n _ => .pure _)

/-! ## Reserved entries -/

/-- A reserved entry as it is written: a quoted name or a range. -/
inductive WrittenReserved (max : Int) : List Token → Reserved → Prop
  | name {token : Token} (hQuoted : token.startsQuoted = true) :
      WrittenReserved max [token] (.name token.unquote)
  | range {tokens : List Token} {first last : Int}
      (hRange : WrittenRange Numeral.reservedNumbers max tokens first last) :
      WrittenReserved max tokens (.range first last)

/-- What follows the first token of an entry that is no name is a range. -/
theorem reservedEntry_eq {token : Token} (hPlain : token.startsQuoted = false) :
    (if token.startsQuoted then pure (.name token.unquote)
      else
        numeral Numeral.reservedNumbers token "reserved" >>= fun first =>
          rangeEnd Numeral.reservedNumbers first max "reserved range end" "reserved" >>=
            fun last => pure (.range first last)) =
      (rangeRest Numeral.reservedNumbers max "reserved range end" "reserved" token >>=
        fun ends => pure (Reserved.range ends.1 ends.2) : Parser Reserved) := by
  simp only [hPlain, Bool.false_eq_true, if_false, rangeRest, bind_assoc, pure_bind]

theorem reads_reservedEntry {entry : Reserved} (hEntry : WrittenReserved max tokens entry)
    (hLater : CommaFirst ";" later) :
    (reservedEntry max).Reads levels (tokens ++ later) entry later := by
  cases hEntry with
  | @name token hQuoted =>
      refine .bind (reads_next token _ _) ?_
      rw [if_pos hQuoted]
      exact .pure _
  | range hRange =>
      obtain ⟨token, rest, rfl, hNumber, hReads⟩ :=
        reads_rangeRest hRange (noRangeEnd_of_commaFirst hLater) levels "reserved range end"
          "reserved"
      have hPlain := Numeral.not_startsQuoted (Numeral.denotesIn_iff.mp hNumber)
      refine .bind (reads_next token _ _) ?_
      rw [reservedEntry_eq hPlain]
      exact .bind hReads (.pure _)

theorem takesNumber_reservedEntry {record : Int → Int × Int}
    (hSlot : RangeSlot Numeral.reservedNumbers max literal tokens record)
    (hPlain : tokens.head? = some literal → literal.startsQuoted = false)
    (hLater : CommaFirst ";" later) :
    (reservedEntry max).TakesNumber levels Numeral.reservedNumbers literal "reserved"
      (tokens ++ later) (fun n => .range (record n).1 (record n).2) later := by
  obtain ⟨token, rest, rfl, hToken, hTakes⟩ :=
    takesNumber_rangeRest hSlot (noRangeEnd_of_commaFirst hLater) levels "reserved range end"
      "reserved"
  have hRange : token.startsQuoted = false := by
    rcases hToken with rfl | ⟨n, hNumber⟩
    · exact hPlain rfl
    · exact Numeral.not_startsQuoted (Numeral.denotesIn_iff.mp hNumber)
  refine .bind_reads (reads_next token _ _) ?_
  rw [reservedEntry_eq hRange]
  exact hTakes.bind fun n _ => .pure _

end Grammar
end ProtoIdl
