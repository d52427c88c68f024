import ProtoIdl.Grammar.Enum
import ProtoIdl.Proofs.RoundTrip.Option

/-!
# Reading back ranges and enums

The members of an enum are read back section by section: its values, its reserved entries
and its option statements.  The semicolon that an enum may end with is not part of the
form, so nothing that starts with one may follow.
-/

namespace ProtoIdl
namespace Grammar

open ProtoIdl.Parser

variable {levels : Nat} {rest later : List Token}

/-! ## Sections of option statements -/

/-- A section of option statements binds the options one by one.  `stateAt bound` is the
state when the options `bound` have been read. -/
theorem reads_statements (Holds : σ → List Token → Prop) {options : OptionMap}
    (stateAt : OptionMap → σ) (hDeclared : options.Declared)
    (hNesting : options.nesting ≤ levels)
    (hStep : ∀ bound grown ahead rest, (bindOptionRest bound).Reads levels ahead grown rest →
      Holds (stateAt grown) rest → Holds (stateAt bound) (Keyword.option.text :: ahead))
    (hLater : NoSemicolonFirst later) (hEnd : Holds (stateAt options) later) :
    Holds (stateAt ∅) (options.statements ++ later) := by
  cases options with
  | mk bindings =>
      refine reads_flatMap Holds (fun done => stateAt ⟨done⟩) ?_ ?_ hLater hEnd
      · intro done binding todo hSplit rest _ hRest
        have hBinding : ReadableBinding levels binding :=
          readableBinding_of_mem hDeclared hNesting (List.mem_iff_append.mpr ⟨done, todo, hSplit⟩)
        have hNew := not_mem_keys_of_split hDeclared hSplit
        have hStatement := hStep _ _ _ rest (reads_bindOptionRest hBinding hNew) hRest
        simpa [optionStatement] using hStatement
      · intro binding _
        exact noSemicolonFirst_cons (by decide)

theorem noSemicolonFirst_statements (options : OptionMap) :
    NoSemicolonFirst options.statements :=
  noSemicolonFirst_flatMap fun _ _ => noSemicolonFirst_cons (by decide)

/-! ## Ranges -/

/-- The upper end of a range is read after `to`. -/
theorem reads_rangeEnd {interval : Numeral.Interval} {first max last : Int}
    (hLast : Numeral.within? interval last.repr = some last) (expected context : String) :
    (rangeEnd interval first max expected context).Reads levels
      (Keyword.upTo.text :: last.repr :: rest) last rest := by
  have hMax : last.repr ≠ Keyword.max.text := Numeral.repr_ne (by decide)
  refine .bind (reads_eat _) ?_
  rw [if_pos rfl]
  refine .bind (reads_next _ _ _) ?_
  rw [if_neg hMax]
  exact reads_numeral hLast context

/-- After its keyword an `extensions` statement adds its range. -/
theorem reads_extensionsRest {range : ExtensionRange} (hRange : range.Printable)
    (ranges : List ExtensionRange) :
    (extensionsRest ranges).Reads levels (range.tokens.tail ++ rest) (ranges ++ [range])
      rest := by
  have hFirst : Numeral.within? Numeral.fieldNumbers (range.first : Int).repr =
      some (range.first : Int) := by
    have hLt := hRange.1
    exact Numeral.within?_repr (by simp [Numeral.fieldNumbers])
      (by simp only [Numeral.fieldNumbers]; omega)
  have hLast : Numeral.within? Numeral.fieldNumbers (range.last : Int).repr =
      some (range.last : Int) := by
    have hLt := hRange.2
    exact Numeral.within?_repr (by simp [Numeral.fieldNumbers])
      (by simp only [Numeral.fieldNumbers]; omega)
  have hOne : extensionRange.Reads levels (range.tokens.tail ++ rest) range (";" :: rest) := by
    refine .bind (reads_next _ _ _) ?_
    refine .bind (reads_numeral hFirst _) ?_
    refine .bind (reads_rangeEnd hLast _ _) ?_
    exact .pure _
  exact .bind (.bind hOne (.pure _)) (reads_loop_done (reads_commaHead_done (by decide) _))

/-- After its keyword a `reserved` statement adds its entry. -/
theorem reads_reservedRest {entry : Reserved} (hEntry : entry.Printable) (max : Int)
    (reserved : List Reserved) :
    (reservedRest max reserved).Reads levels (entry.tokens.tail ++ rest) (reserved ++ [entry])
      rest := by
  have hOne : (reservedEntry max).Reads levels (entry.tokens.tail ++ rest) entry
      (";" :: rest) := by
    cases entry with
    | range first last =>
        obtain ⟨hFirst, hLast⟩ := hEntry
        have hLower : Numeral.within? Numeral.reservedNumbers first.repr = some first :=
          Numeral.within?_repr (by simp only [Numeral.reservedNumbers]; omega)
            (by simp only [Numeral.reservedNumbers]; omega)
        have hUpper : Numeral.within? Numeral.reservedNumbers last.repr = some last :=
          Numeral.within?_repr (by simp only [Numeral.reservedNumbers]; omega)
            (by simp only [Numeral.reservedNumbers]; omega)
        refine .bind (reads_next first.repr _ _) ?_
        rw [if_neg (by simp [Numeral.repr_startsQuoted])]
        exact .bind (reads_numeral hLower _) (.bind (reads_rangeEnd hUpper _ _) (.pure _))
    | name text =>
        have hText : (Token.quoted text).unquote = text := by
          rw [unquote_quoted]
          exact hEntry
        refine .bind (reads_next (Token.quoted text) _ _) ?_
        rw [if_pos (startsQuoted_quoted text), hText]
        exact .pure _
  exact .bind (.bind hOne (.pure _)) (reads_loop_done (reads_commaHead_done (by decide) _))

theorem tokens_extensionRange (range : ExtensionRange) :
    range.tokens = Keyword.extensions.text :: range.tokens.tail := rfl

theorem tokens_reserved (entry : Reserved) :
    entry.tokens = Keyword.reserved.text :: entry.tokens.tail := by
  cases entry <;> rfl

theorem noSemicolonFirst_reserved (entry : Reserved) : NoSemicolonFirst entry.tokens := by
  rw [tokens_reserved]
  exact noSemicolonFirst_cons (by decide)

theorem whole_extensionRange (range : ExtensionRange) : Cursor.Whole range.tokens :=
  whole_mark (whole_numeral _ (whole_mark (whole_numeral _ (whole_mark .nil))))

theorem whole_reserved (entry : Reserved) : Cursor.Whole entry.tokens := by
  cases entry with
  | range first last =>
      exact whole_mark (whole_numeral _ (whole_mark (whole_numeral _ (whole_mark .nil))))
  | name text => exact whole_mark (whole_word (isWord_quoted text) (whole_mark .nil))

/-! ## Enum values -/

/-- A field option list and a semicolon start with one of the two tokens that show that an
enum value has ended. -/
theorem exists_terminator (options : OptionMap) (rest : List Token) :
    ∃ terminator tail, options.fieldList ++ ";" :: rest = terminator :: tail ∧
      (terminator = ";" ∨ terminator = "[") := by
  rcases options with ⟨_ | ⟨first, others⟩⟩
  · exact ⟨";", rest, rfl, .inl rfl⟩
  · exact ⟨"[", _, rfl, .inr rfl⟩

theorem reads_enumValueShape {number terminator : Token} {tail : List Token}
    (hTerminator : terminator = ";" ∨ terminator = "[") :
    enumValueShape.Reads levels ("=" :: number :: terminator :: tail) ()
      ("=" :: number :: terminator :: tail) := by
  have hEnds : ¬(terminator ≠ ";" ∧ terminator ≠ "[") := by
    rintro ⟨hSemicolon, hBracket⟩
    exact hTerminator.elim hSemicolon hBracket
  refine .bind (reads_peekNth 0) (.bind (reads_peekNth 2) ?_)
  simp only [List.getElem?_cons_succ, List.getElem?_cons_zero, ne_eq, not_true, if_false]
  rw [if_neg hEnds]
  exact .pure ()

/-- After its name an enum value is read with its number and its options. -/
theorem reads_enumValueRest {value : EnumValue} (hValue : value.Printable)
    (hNesting : value.options.nesting ≤ levels) :
    (enumValueRest value.comments value.name).Reads levels
      ("=" :: value.number.repr :: (value.options.fieldList ++ ";" :: rest)) value rest := by
  obtain ⟨terminator, tail, hTail, hTerminator⟩ := exists_terminator value.options rest
  have hShape : enumValueShape.Reads levels
      ("=" :: value.number.repr :: (value.options.fieldList ++ ";" :: rest)) ()
      ("=" :: value.number.repr :: (value.options.fieldList ++ ";" :: rest)) := by
    rw [hTail]
    exact reads_enumValueShape hTerminator
  have hNumber : Numeral.within? Numeral.enumNumbers value.number.repr = some value.number := by
    obtain ⟨hLeast, hLt⟩ := hValue.number
    exact Numeral.within?_repr hLeast (by simp only [Numeral.enumNumbers]; omega)
  exact .bind hShape <| .bind (reads_checkWord hValue.name _) <|
    reads_numbered hNumber hValue.options hNesting _ _ _ _

/-- A word without a role of its own starts an enum value. -/
theorem enumMember_value {name : Token} (hName : IsWord name)
    (hOption : name ≠ Keyword.option.text) (hReserved : name ≠ Keyword.reserved.text)
    (decl : EnumDecl) (comments : List String) :
    enumMember decl (comments, name) =
      (enumValueRest comments name >>= fun value => ofExcept (addEnumValue decl value)) := by
  unfold enumMember
  rw [if_neg (hName.ne (by decide))]
  split
  · next hKeyword => exact absurd (Keyword.text_of_ofToken? hKeyword).symm hOption
  · next hKeyword => exact absurd (Keyword.text_of_ofToken? hKeyword).symm hReserved
  · rfl

/-- A value of a new name is added at the end. -/
theorem addEnumValue_of_not_mem {decl : EnumDecl} {value : EnumValue}
    (hNew : value.name ∉ decl.values.map EnumValue.name) :
    addEnumValue decl value = .ok { decl with values := decl.values ++ [value] } := by
  have hNone : decl.value? value.name = none := by
    rw [EnumDecl.value?, List.find?_eq_none]
    intro other hMem hSame
    exact hNew (List.mem_map.mpr ⟨other, hMem, by simpa using hSame⟩)
  rw [addEnumValue, hNone, if_neg (by simp)]

theorem noSemicolonFirst_enumValue {value : EnumValue} (hName : IsWord value.name) :
    NoSemicolonFirst value.tokens :=
  (noSemicolonFirst_commentTokens _).append (noSemicolonFirst_cons (hName.ne (by decide)))

theorem whole_enumValue {value : EnumValue} (hValue : value.Printable) :
    Cursor.Whole value.tokens :=
  (whole_commentTokens _).append <| whole_word hValue.name <| whole_mark <| whole_numeral _ <|
    (whole_fieldList hValue.options).append (whole_mark .nil)

/-! ## Enums -/

/-- With `decl` read so far, the members ahead are read to `final`. -/
def EnumReads (levels : Nat) (final : EnumDecl) (later : List Token) (decl : EnumDecl)
    (ahead : List Token) : Prop :=
  (loop (memberHead "enum") enumMember decl).Reads levels ahead final later

section Members

variable {decl grown final : EnumDecl} {ahead : List Token}

/-- One member of an enum, and then the others. -/
theorem enumReads_member {comments : List String} {token : Token}
    (hComments : PrintableComments comments) (hComment : token.isComment = false)
    (hClose : token ≠ Token.closeBrace)
    (hMember : (enumMember decl (comments, token)).Reads levels ahead grown rest)
    (hRest : EnumReads levels final later grown rest) :
    EnumReads levels final later decl (commentTokens comments ++ token :: ahead) :=
  reads_loop_item (reads_memberHead hComments hComment hClose) hMember hRest

/-- A value of a new name, and then the other members. -/
theorem enumReads_value {value : EnumValue} (hValue : value.Printable)
    (hNesting : value.options.nesting ≤ levels)
    (hNew : value.name ∉ decl.values.map EnumValue.name)
    (hRest : EnumReads levels final later { decl with values := decl.values ++ [value] } rest) :
    EnumReads levels final later decl (value.tokens ++ rest) := by
  have hTokens : value.tokens ++ rest = commentTokens value.comments ++
      (value.name :: "=" :: value.number.repr :: (value.options.fieldList ++ ";" :: rest)) := by
    simp [EnumValue.tokens]
  rw [hTokens]
  refine enumReads_member hValue.comments hValue.name.not_comment (hValue.name.ne (by decide))
    ?_ hRest
  rw [enumMember_value hValue.name hValue.not_option hValue.not_reserved]
  exact .bind (reads_enumValueRest hValue hNesting) (.ofExcept (addEnumValue_of_not_mem hNew))

/-- A reserved entry, and then the other members. -/
theorem enumReads_reserved {entry : Reserved} (hEntry : entry.Printable)
    (hRest : EnumReads levels final later { decl with reserved := decl.reserved ++ [entry] }
      rest) :
    EnumReads levels final later decl (entry.tokens ++ rest) := by
  rw [tokens_reserved]
  exact enumReads_member printableComments_nil (by decide) (by decide)
    (.bind (reads_reservedRest hEntry _ _) (.pure _)) hRest

/-- An option statement, and then the other members. -/
theorem enumReads_option {options : OptionMap}
    (hOption : (bindOptionRest decl.options).Reads levels ahead options rest)
    (hRest : EnumReads levels final later { decl with options := options } rest) :
    EnumReads levels final later decl (Keyword.option.text :: ahead) :=
  enumReads_member printableComments_nil (by decide) (by decide) (.bind hOption (.pure _)) hRest

/-! The members come in three sections. -/

variable {name : String} {values : List EnumValue} {reserved : List Reserved}

theorem enumReads_values (hValues : ∀ value ∈ values, value.Printable)
    (hNodup : (values.map EnumValue.name).Nodup)
    (hNesting : deepest (fun value => value.options.nesting) values ≤ levels)
    (hLater : NoSemicolonFirst rest)
    (hRest : EnumReads levels final later ⟨name, values, [], ∅, []⟩ rest) :
    EnumReads levels final later (.new name) (values.flatMap EnumValue.tokens ++ rest) := by
  refine reads_flatMap (EnumReads levels final later) (fun done => ⟨name, done, [], ∅, []⟩) ?_
    (fun value hMem => noSemicolonFirst_enumValue (hValues value hMem).name) hLater hRest
  intro done value todo hSplit after _ hAfter
  have hMem : value ∈ values := List.mem_iff_append.mpr ⟨done, todo, hSplit⟩
  have hLevels : value.options.nesting ≤ levels :=
    le_trans (le_deepest (fun value => value.options.nesting) hMem) hNesting
  have hNew : value.name ∉ done.map EnumValue.name := by
    rw [hSplit, List.map_append, List.map_cons] at hNodup
    intro hDone
    exact (List.nodup_append.mp hNodup).2.2 _ hDone _ (by simp) rfl
  exact enumReads_value (hValues value hMem) hLevels hNew hAfter

theorem enumReads_entries (hReserved : ∀ entry ∈ reserved, entry.Printable)
    (hLater : NoSemicolonFirst rest)
    (hRest : EnumReads levels final later ⟨name, values, reserved, ∅, []⟩ rest) :
    EnumReads levels final later ⟨name, values, [], ∅, []⟩
      (reserved.flatMap Reserved.tokens ++ rest) := by
  refine reads_flatMap (EnumReads levels final later)
    (fun done => ⟨name, values, done, ∅, []⟩) ?_
    (fun entry _ => noSemicolonFirst_reserved entry) hLater hRest
  intro done entry todo hSplit after _ hAfter
  exact enumReads_reserved (hReserved entry (List.mem_iff_append.mpr ⟨done, todo, hSplit⟩)) hAfter

theorem enumReads_options {options : OptionMap} (hDeclared : options.Declared)
    (hNesting : options.nesting ≤ levels) (hLater : NoSemicolonFirst rest)
    (hRest : EnumReads levels final later ⟨name, values, reserved, options, []⟩ rest) :
    EnumReads levels final later ⟨name, values, reserved, ∅, []⟩
      (options.statements ++ rest) := by
  refine reads_statements (EnumReads levels final later)
    (fun bound => ⟨name, values, reserved, bound, []⟩) hDeclared hNesting ?_ hLater hRest
  intro bound grown ahead after hOption hAfter
  exact enumReads_option hOption hAfter

end Members

/-- The members of an enum are read back. -/
theorem enumReads_body {decl : EnumDecl} (hDecl : decl.Printable)
    (hNesting : decl.nesting ≤ levels) :
    EnumReads levels { decl with comments := [] } rest (.new decl.name)
      (decl.bodyTokens ++ Token.closeBrace :: rest) := by
  obtain ⟨hOptionLevels, hValueLevels⟩ := Nat.max_le.mp hNesting
  have hClose : NoSemicolonFirst (Token.closeBrace :: rest) := noSemicolonFirst_cons (by decide)
  have hOptions := (noSemicolonFirst_statements decl.options).append hClose
  have hEntries := (noSemicolonFirst_flatMap
    fun entry (_ : entry ∈ decl.reserved) => noSemicolonFirst_reserved entry).append hOptions
  rw [EnumDecl.bodyTokens, List.append_assoc, List.append_assoc]
  apply enumReads_values hDecl.values hDecl.nodup hValueLevels hEntries
  apply enumReads_entries hDecl.reserved hOptions
  apply enumReads_options hDecl.options hOptionLevels hClose
  exact reads_loop_done reads_memberHead_done

/-- After its keyword an enum is read back, apart from the comments before it. -/
theorem reads_enumRest {decl : EnumDecl} (hDecl : decl.Printable)
    (hNesting : decl.nesting ≤ levels) (hRest : NoSemicolonFirst rest) :
    enumRest.Reads levels (decl.name :: (braced decl.bodyTokens ++ rest))
      { decl with comments := [] } rest := by
  have hTokens : braced decl.bodyTokens ++ rest =
      Token.openBrace :: (decl.bodyTokens ++ Token.closeBrace :: rest) := by
    simp [braced]
  rw [hTokens]
  refine .bind (reads_word hDecl.name _ _) ?_
  refine .bind (reads_expect _ _) ?_
  refine .bind (enumReads_body hDecl hNesting) ?_
  refine .bind (reads_eat_other hRest) ?_
  exact .pure _

theorem noSemicolonFirst_enum (decl : EnumDecl) : NoSemicolonFirst decl.tokens :=
  (noSemicolonFirst_commentTokens _).append (noSemicolonFirst_cons (by decide))

theorem whole_enum {decl : EnumDecl} (hDecl : decl.Printable) : Cursor.Whole decl.tokens := by
  have hBody : Cursor.Whole decl.bodyTokens :=
    (Cursor.Whole.flatMap fun value hMem => whole_enumValue (hDecl.values value hMem)).append <|
      (Cursor.Whole.flatMap fun entry _ => whole_reserved entry).append
        (whole_statements hDecl.options)
  exact (whole_commentTokens _).append (whole_mark (whole_word hDecl.name (whole_braced hBody)))

end Grammar
end ProtoIdl
