import ProtoIdl.Proofs.Depth.Grammar
import ProtoIdl.Proofs.Local.Grammar
import ProtoIdl.Proofs.Members.Loop
import ProtoIdl.Proofs.Parser.Reading
import ProtoIdl.Proofs.Trace.Alike
import ProtoIdl.Proofs.Trace.Grammar

/-!
# Statements that stand alone

`parser.ReadsAlone levels tokens value` says that the parser takes all of `tokens` when nothing
else is ahead and `levels` levels are open.  What is read so is read in the same way wherever as
many levels are open, with anything behind it: the place does not matter, more tokens do not
matter, and levels that are not needed do not matter.
-/

namespace ProtoIdl

namespace Parser

variable {levels : Nat} {tokens : List Token}

/-- With nothing but `tokens` ahead and `levels` levels open, the parser answers the value and
takes all of them. -/
def ReadsAlone (parser : Parser α) (levels : Nat) (tokens : List Token) (value : α) : Prop :=
  ∃ after, parser.run (.ofTokens tokens levels) = .ok value after ∧ after.rest = []

/-- What is read with nothing behind it stands alone. -/
theorem Reads.readsAlone {parser : Parser α} {value : α}
    (hReads : parser.Reads levels tokens value []) : parser.ReadsAlone levels tokens value := by
  obtain ⟨after, hRun, hEnd, -⟩ :=
    hReads (.ofTokens tokens levels) rfl (by simp [Cursor.ofTokens])
  exact ⟨after, hRun, hEnd⟩

/-- What takes all tokens from one place reads them from any other, with anything behind. -/
theorem reads_of_run {parser : Parser α} {measure : α → Nat} {value : α} {start after : Cursor}
    (hTraced : parser.Traced start) (hSettled : ∀ cursor, Settled parser true cursor)
    (hGauged : ∀ cursor, Gauged parser 0 measure cursor)
    (hRun : parser.run start = .ok value after) (hDepth : start.depth = 0)
    (hEnd : after.rest = []) (later : List Token) :
    parser.Reads start.limit (start.rest ++ later) value later := by
  intro cursor hRest hLevels
  let short : Cursor := { cursor with rest := start.rest }
  have hRoomier : start.Roomier short := by
    refine ⟨rfl, by omega, ?_⟩
    show cursor.depth + start.limit ≤ cursor.limit + start.depth
    omega
  obtain ⟨last, hShort, hLast⟩ := hTraced.answersWithin hRoomier value after hRun
  have hNil : last.rest = [] := hLast.rest_eq.trans hEnd
  have hCursor : short.extended later = cursor := by
    rw [Cursor.extended, ← hRest]
  have hLong := (hSettled short).run_extended hShort later
  rw [hCursor] at hLong
  refine ⟨last.extended later, hLong, by simp [hNil], ?_⟩
  exact ((hGauged cursor).of_ok (by omega) hLong).1

/-- What is read alone after a token that it begins with is read after this token. -/
theorem exists_of_readsAlone_expect {token : Token} {context : String} {parser : Parser α}
    {measure : α → Nat} {value : α}
    (hAlone : (expect token context >>= fun _ => parser).ReadsAlone levels tokens value)
    (hTraced : ∀ cursor, parser.Traced cursor) (hSettled : ∀ cursor, Settled parser true cursor)
    (hGauged : ∀ cursor, Gauged parser 0 measure cursor) :
    ∃ rest, tokens = token :: rest ∧
      ∀ later, parser.Reads levels (rest ++ later) value later := by
  obtain ⟨after, hRun, hEnd⟩ := hAlone
  obtain ⟨rest, hTokens, hRest⟩ := exists_of_run_expect_bind hRun
  exact ⟨rest, hTokens, reads_of_run (hTraced _) hSettled hGauged hRest rfl hEnd⟩

end Parser

namespace Grammar

open ProtoIdl.Parser

variable {levels : Nat} {tokens : List Token}

/-- Read a `reserved` statement with numbers up to `max`. -/
def reserved (max : Int) : Parser (List Reserved) := do
  expect Keyword.reserved.text "reserved"
  reservedRest max []

theorem gauged_optionRest (cursor : Cursor) :
    Gauged optionRest 0 (fun binding => binding.2.nesting) cursor := by
  refine (gauged_optionBinding "option").bind fun binding afterBinding _ => ?_
  refine .after_levelless (.expect _ _) fun _ afterEnd _ => ?_
  exact .pure rfl

/-- An option statement that stands alone is read wherever it stands. -/
theorem exists_of_option {binding : String × OptionValue}
    (hAlone : option.ReadsAlone levels tokens binding) :
    ∃ rest, tokens = Keyword.option.text :: rest ∧
      ∀ later, optionRest.Reads levels (rest ++ later) binding later :=
  exists_of_readsAlone_expect hAlone (fun _ => traced_optionRest) (fun _ => settled_optionRest)
    gauged_optionRest

/-- The option of a statement that stands alone is bound, or refused for its name. -/
theorem exists_gives_bindOption {binding : String × OptionValue}
    (hAlone : option.ReadsAlone levels tokens binding) :
    ∃ rest, tokens = Keyword.option.text :: rest ∧ ∀ (options : OptionMap) (later : List Token),
      (bindOptionRest options).Gives levels (rest ++ later) (options.bind binding.1 binding.2)
        later := by
  obtain ⟨rest, rfl, hReads⟩ := exists_of_option hAlone
  exact ⟨rest, rfl, fun options later => .bind_reads (hReads later) (.ofExcept _)⟩

/-- A `reserved` statement that stands alone is read wherever it stands. -/
theorem exists_of_reserved {max : Int} {entries : List Reserved}
    (hAlone : (reserved max).ReadsAlone levels tokens entries) :
    ∃ rest, tokens = Keyword.reserved.text :: rest ∧
      ∀ later, (reservedRest max []).Reads levels (rest ++ later) entries later :=
  exists_of_readsAlone_expect hAlone (fun _ => traced_reservedRest max [])
    (fun _ => settled_reservedRest max []) fun _ => gauged_reservedRest max []

/-- A field option list that stands alone is read wherever it stands. -/
theorem exists_of_fieldOptions {options : OptionMap}
    (hAlone : fieldOptions.ReadsAlone levels tokens options) :
    ∃ rest, tokens = "[" :: rest ∧
      ∀ later, fieldOptions.Reads levels (tokens ++ later) options later := by
  have hItems : ∀ cursor, Gauged (commaList "]" "field options" fieldOption ∅) 0
      OptionMap.nesting cursor :=
    fun _ => .commaList (fun options _ => gauged_fieldOption options) _ _ ∅
  obtain ⟨rest, rfl, hRest⟩ := exists_of_readsAlone_expect hAlone
    (fun _ => .commaList (fun options _ => traced_fieldOption options) _ _ ∅)
    (fun _ => .commaList (fun options _ => settled_fieldOption options) _ _ ∅) hItems
  exact ⟨rest, rfl, fun later => .bind (reads_expect _ _) (hRest later)⟩

end Grammar
end ProtoIdl
