import ProtoIdl.Proofs.Members.Enum
import ProtoIdl.Proofs.Numeral.Machine
import ProtoIdl.Proofs.Numeral.Range
import ProtoIdl.Proofs.RoundTrip.Field

/-!
# Places for numbers

A field, a value of an enum, a range of extension numbers and a reserved range have places for
numbers.  `NumberSlot` lists these places: it says how such a member is written around the
literal, and what is recorded for an integer.  Whatever token stands there, the member is
accepted just when the token denotes an integer of the interval of the place; otherwise the token
is reported.
-/

namespace ProtoIdl
namespace Grammar

open ProtoIdl.Parser

variable {levels : Nat} {interval : Numeral.Interval} {literal : Token} {context : String}
  {tokens later : List Token}

/-! ## Fields and enum values -/

/-- What stands before the name of a field: a type, a rule and a type, or a map type.  The first
token is told apart from those after it. -/
inductive WrittenLead (bodies : List String) : Token → List Token → FieldHead → Prop
  | plain {type : Token} (hType : IsWord type)
      (hRule : ∀ keyword ∈ [Keyword.map, .repeated, .required, .optional],
        type ≠ keyword.text) :
      WrittenLead bodies type [] ⟨.ofName type, false, false, bodies⟩
  | ruled {keyword : Keyword} {required repeated : Bool} {comments : List Token} {type : Token}
      (hRule : (keyword, required, repeated) ∈ [(Keyword.repeated, false, true),
        (.required, true, false), (.optional, false, false)])
      (hComments : ∀ token ∈ comments, token.isComment = true) (hType : IsWord type) :
      WrittenLead bodies keyword.text (comments ++ [type])
        ⟨.ofName type, required, repeated, bodies ++ comments.map Token.commentBody⟩
  | map {key value : Token} (hKey : IsWord key) (hValue : IsWord value) :
      WrittenLead bodies Keyword.map.text ["<", key, ",", value, ">"]
        ⟨.map key value, false, false, bodies⟩

/-- A word that is no keyword of a rule or of a map starts a field with its type. -/
theorem fieldHead_plain {bodies : List String} {type : Token}
    (hRule : ∀ keyword ∈ [Keyword.map, .repeated, .required, .optional], type ≠ keyword.text) :
    fieldHead bodies type = checkWord type "message field" >>= fun type =>
      pure ⟨.ofName type, false, false, bodies⟩ := by
  unfold fieldHead
  split
  · next hKeyword => exact absurd (Keyword.text_of_ofToken? hKeyword).symm (hRule _ (by simp))
  · next hKeyword => exact absurd (Keyword.text_of_ofToken? hKeyword).symm (hRule _ (by simp))
  · next hKeyword => exact absurd (Keyword.text_of_ofToken? hKeyword).symm (hRule _ (by simp))
  · next hKeyword => exact absurd (Keyword.text_of_ofToken? hKeyword).symm (hRule _ (by simp))
  · rfl

theorem WrittenLead.reads {bodies : List String} {first : Token} {lead : List Token}
    {head : FieldHead} (hLead : WrittenLead bodies first lead head) :
    (fieldHead bodies first).Reads levels (lead ++ later) head later := by
  cases hLead with
  | plain hType hRule =>
      rw [fieldHead_plain hRule]
      exact .bind (reads_checkWord hType _) (.pure _)
  | @ruled keyword required repeated comments type hRule hComments hType =>
      have hHead : fieldHead bodies keyword.text = ruledHead bodies required repeated := by
        simp only [List.mem_cons, List.not_mem_nil, or_false, Prod.mk.injEq] at hRule
        rcases hRule with ⟨rfl, rfl, rfl⟩ | ⟨rfl, rfl, rfl⟩ | ⟨rfl, rfl, rfl⟩ <;> rfl
      have hTokens : comments ++ [type] ++ later = comments ++ type :: later := by simp
      rw [hHead, hTokens]
      exact .bind (reads_commentsBefore hComments hType.not_comment) <|
        .bind (reads_fieldWord hType _) (.pure _)
  | map hKey hValue => exact .bind (reads_mapTypeRest hKey hValue) (.pure _)

theorem WrittenLead.first_ne {bodies : List String} {first : Token} {lead : List Token}
    {head : FieldHead} (hLead : WrittenLead bodies first lead head) : first ≠ ";" := by
  cases hLead with
  | plain hType hRule => exact hType.ne (by decide)
  | @ruled keyword required repeated comments type hRule hComments hType =>
      cases keyword <;> decide
  | map hKey hValue => decide

section Numbered

variable {bodies : List String} {first name : Token} {lead list : List Token} {head : FieldHead}
  {options : OptionMap}

/-- A field takes its number. -/
theorem takesNumber_fieldRest (hLead : WrittenLead bodies first lead head) (hName : IsWord name)
    (hOptions : WrittenOptions levels list options) (literal : Token) (later : List Token) :
    (fieldRest bodies first).TakesNumber levels Numeral.fieldNumbers literal "field number"
      (lead ++ name :: "=" :: literal :: (list ++ ";" :: later))
      (fun n => ⟨name, head.type, n.toNat, head.required, head.repeated, none, options,
        head.comments⟩) later := by
  refine .bind_reads hLead.reads <| .bind_reads (reads_fieldWord hName _) <|
    .bind_reads (reads_expect "=" _) <| .bind_reads (reads_next literal _ _) ?_
  apply TakesNumber.numeral
  intro n _
  exact .bind (reads_optionalFieldOptions hOptions later) (.bind (reads_expect ";" _) (.pure _))

/-- A value of an enum takes its number: the tokens after it are looked at first. -/
theorem takesNumber_enumValueRest (bodies : List String) (hName : IsWord name)
    (hOptions : WrittenOptions levels list options) (literal : Token) (later : List Token) :
    (enumValueRest bodies name).TakesNumber levels Numeral.enumNumbers literal "enum value"
      ("=" :: literal :: (list ++ ";" :: later)) (fun n => ⟨name, n, options, bodies⟩)
      later := by
  obtain ⟨terminator, tail, hTail, hTerminator⟩ := exists_terminator_of_written hOptions later
  have hShape : enumValueShape.Reads levels ("=" :: literal :: (list ++ ";" :: later)) ()
      ("=" :: literal :: (list ++ ";" :: later)) := by
    rw [hTail]
    exact reads_enumValueShape hTerminator
  refine .bind_reads hShape <| .bind_reads (reads_checkWord hName _) <|
    .bind_reads (reads_expect "=" _) <| .bind_reads (reads_next literal _ _) ?_
  apply TakesNumber.numeral
  intro n _
  exact .bind (reads_optionalFieldOptions hOptions later) (.bind (reads_expect ";" _) (.pure _))

end Numbered

/-! ## All places -/

/-- A member of a message, of a group or of an enum with a place for the literal: the parser of
the member after the comments `bodies` and its first token, the interval of the numbers that fit
there, the wording of the place, the tokens, and what the parser answers for a number. -/
inductive NumberSlot (levels : Nat) (literal : Token) : {σ : Type} → Parser σ →
    Numeral.Interval → String → List Token → (Int → σ) → Prop
  /-- A field of a message. -/
  | field {message : Message} {bodies : List String} {first name : Token} {lead list : List Token}
      {head : FieldHead} {options : OptionMap} (hLead : WrittenLead bodies first lead head)
      (hFirst : ∀ keyword ∈ [Keyword.enum, .message, .extend, .extensions, .reserved, .oneof,
        .option], first ≠ keyword.text)
      (hName : IsWord name) (hOptions : WrittenOptions levels list options) :
      NumberSlot levels literal (messageStatement message (bodies, first)) Numeral.fieldNumbers
        "field number" (lead ++ name :: "=" :: literal :: (list ++ [";"])) fun n =>
          { message with fields := message.fields ++ [⟨name, head.type, n.toNat, head.required,
              head.repeated, none, options, head.comments⟩] }
  /-- A field of a group, which has no rule, or the one that changes nothing. -/
  | oneofField {fields : List Field} {group : String} {bodies : List String} {first name : Token}
      {lead list : List Token} {head : FieldHead} {options : OptionMap}
      (hLead : WrittenLead bodies first lead head)
      (hFirst : ∀ keyword ∈ [Keyword.repeated, .required, .map, .option], first ≠ keyword.text)
      (hName : IsWord name) (hOptions : WrittenOptions levels list options) :
      NumberSlot levels literal (oneofMember group fields (bodies, first)) Numeral.fieldNumbers
        "field number" (lead ++ name :: "=" :: literal :: (list ++ [";"])) fun n =>
          fields ++ [⟨name, head.type, n.toNat, head.required, head.repeated, some group, options,
            head.comments⟩]
  /-- A value of an enum that has none of its name. -/
  | enumValue {decl : EnumDecl} {bodies : List String} {name : Token} {list : List Token}
      {options : OptionMap} (hName : IsWord name)
      (hMember : name ≠ Keyword.option.text ∧ name ≠ Keyword.reserved.text)
      (hNew : name ∉ decl.values.map EnumValue.name)
      (hOptions : WrittenOptions levels list options) :
      NumberSlot levels literal (enumMember decl (bodies, name)) Numeral.enumNumbers "enum value"
        ("=" :: literal :: (list ++ [";"])) fun n =>
          { decl with values := decl.values ++ [⟨name, n, options, bodies⟩] }
  /-- One of the extension ranges of a statement. -/
  | extensions {message : Message} {bodies : List String} {before slot after : List Token}
      {first last : List ExtensionRange} {record : Int → Int × Int}
      (hBefore : EntriesBefore WrittenExtension before first)
      (hSlot : RangeSlot Numeral.fieldNumbers maxFieldNumber literal slot record)
      (hAfter : EntriesAfter WrittenExtension after last) :
      NumberSlot levels literal (messageStatement message (bodies, Keyword.extensions.text))
        Numeral.fieldNumbers "extensions" (before ++ (slot ++ after)) fun n =>
          { message with extensions := message.extensions ++
              (first ++ ⟨(record n).1.toNat, (record n).2.toNat⟩ :: last) }
  /-- One of the reserved ranges of a statement in a message. -/
  | reserved {message : Message} {bodies : List String} {before slot after : List Token}
      {first last : List Reserved} {record : Int → Int × Int}
      (hBefore : EntriesBefore (WrittenReserved maxFieldNumber) before first)
      (hSlot : RangeSlot Numeral.reservedNumbers maxFieldNumber literal slot record)
      (hPlain : slot.head? = some literal → literal.startsQuoted = false)
      (hAfter : EntriesAfter (WrittenReserved maxFieldNumber) after last) :
      NumberSlot levels literal (messageStatement message (bodies, Keyword.reserved.text))
        Numeral.reservedNumbers "reserved" (before ++ (slot ++ after)) fun n =>
          { message with reserved := message.reserved ++
              (first ++ .range (record n).1 (record n).2 :: last) }
  /-- One of the reserved ranges of a statement in an enum. -/
  | enumReserved {decl : EnumDecl} {bodies : List String} {before slot after : List Token}
      {first last : List Reserved} {record : Int → Int × Int}
      (hBefore : EntriesBefore (WrittenReserved maxEnumNumber) before first)
      (hSlot : RangeSlot Numeral.reservedNumbers maxEnumNumber literal slot record)
      (hPlain : slot.head? = some literal → literal.startsQuoted = false)
      (hAfter : EntriesAfter (WrittenReserved maxEnumNumber) after last) :
      NumberSlot levels literal (enumMember decl (bodies, Keyword.reserved.text))
        Numeral.reservedNumbers "reserved" (before ++ (slot ++ after)) fun n =>
          { decl with reserved := decl.reserved ++
              (first ++ .range (record n).1 (record n).2 :: last) }

/-- A token that starts no member of another kind starts a field of a message. -/
theorem messageStatement_field {message : Message} {bodies : List String} {first : Token}
    (hEmpty : first ≠ ";")
    (hFirst : ∀ keyword ∈ [Keyword.enum, .message, .extend, .extensions, .reserved, .oneof,
      .option], first ≠ keyword.text) :
    messageStatement message (bodies, first) = fieldRest bodies first >>= fun field =>
      pure { message with fields := message.fields ++ [field] } := by
  have hKind : BlockKind.ofToken? first = none := by
    unfold BlockKind.ofToken?
    split
    · next hKeyword => exact absurd (Keyword.text_of_ofToken? hKeyword).symm (hFirst _ (by simp))
    · next hKeyword => exact absurd (Keyword.text_of_ofToken? hKeyword).symm (hFirst _ (by simp))
    · rfl
  simp only [messageStatement, hKind]
  unfold messageMember
  rw [if_neg hEmpty]
  split
  · next hKeyword => exact absurd (Keyword.text_of_ofToken? hKeyword).symm (hFirst _ (by simp))
  · next hKeyword => exact absurd (Keyword.text_of_ofToken? hKeyword).symm (hFirst _ (by simp))
  · next hKeyword => exact absurd (Keyword.text_of_ofToken? hKeyword).symm (hFirst _ (by simp))
  · next hKeyword => exact absurd (Keyword.text_of_ofToken? hKeyword).symm (hFirst _ (by simp))
  · next hKeyword => exact absurd (Keyword.text_of_ofToken? hKeyword).symm (hFirst _ (by simp))
  · rfl

/-- A token that starts no member of another kind starts a field of a group. -/
theorem oneofMember_field {fields : List Field} {group : String} {bodies : List String}
    {first : Token} (hEmpty : first ≠ ";")
    (hFirst : ∀ keyword ∈ [Keyword.repeated, .required, .map, .option], first ≠ keyword.text) :
    oneofMember group fields (bodies, first) = fieldRest bodies first >>= fun field =>
      pure (fields ++ [{ field with oneof := some group }]) := by
  unfold oneofMember
  rw [if_neg hEmpty]
  split
  · next hKeyword => exact absurd (Keyword.text_of_ofToken? hKeyword).symm (hFirst _ (by simp))
  · next hKeyword => exact absurd (Keyword.text_of_ofToken? hKeyword).symm (hFirst _ (by simp))
  · next hKeyword => exact absurd (Keyword.text_of_ofToken? hKeyword).symm (hFirst _ (by simp))
  · next hKeyword => exact absurd (Keyword.text_of_ofToken? hKeyword).symm (hFirst _ (by simp))
  · rfl

namespace NumberSlot

variable {σ : Type} {parser : Parser σ} {record : Int → σ}

/-- Every place takes numbers. -/
theorem takesNumber
    (hSlot : NumberSlot levels literal parser interval context tokens record)
    (later : List Token) :
    parser.TakesNumber levels interval literal context (tokens ++ later) record later := by
  have hStatement : ∀ (before slot after : List Token), before ++ (slot ++ after) ++ later =
      before ++ (slot ++ (after ++ later)) := by
    intro before slot after
    simp
  cases hSlot with
  | @field message bodies first name lead list head options hLead hFirst hName hOptions =>
      have hField := takesNumber_fieldRest hLead hName hOptions literal later
      have hTokens : lead ++ name :: "=" :: literal :: (list ++ [";"]) ++ later =
          lead ++ name :: "=" :: literal :: (list ++ ";" :: later) := by simp
      rw [messageStatement_field hLead.first_ne hFirst, hTokens]
      exact hField.bind fun n _ => .pure _
  | @oneofField fields group bodies first name lead list head options hLead hFirst hName hOptions =>
      have hField := takesNumber_fieldRest hLead hName hOptions literal later
      have hTokens : lead ++ name :: "=" :: literal :: (list ++ [";"]) ++ later =
          lead ++ name :: "=" :: literal :: (list ++ ";" :: later) := by simp
      rw [oneofMember_field hLead.first_ne hFirst, hTokens]
      exact hField.bind fun n _ => .pure _
  | @enumValue decl bodies name list options hName hMember hNew hOptions =>
      have hValue := takesNumber_enumValueRest bodies hName hOptions literal later
      have hTokens : "=" :: literal :: (list ++ [";"]) ++ later =
          "=" :: literal :: (list ++ ";" :: later) := by simp
      rw [enumMember_value hName hMember.1 hMember.2, hTokens]
      refine hValue.bind fun n _ => ?_
      exact .ofExcept (addEnumValue_of_not_mem hNew)
  | @extensions message bodies before slot after first last record hBefore hSlot hAfter =>
      rw [hStatement]
      refine TakesNumber.bind ?_ fun n _ => .pure _
      exact takesNumber_entryList (fun tokens entry later => reads_extensionRange) hBefore hAfter
        (fun later => takesNumber_extensionRange hSlot) "extensions" message.extensions later
  | @reserved message bodies before slot after first last record hBefore hSlot hPlain hAfter =>
      rw [hStatement]
      refine TakesNumber.bind ?_ fun n _ => .pure _
      exact takesNumber_entryList (fun tokens entry later => reads_reservedEntry) hBefore hAfter
        (fun later => takesNumber_reservedEntry hSlot hPlain) "reserved" message.reserved later
  | @enumReserved decl bodies before slot after first last record hBefore hSlot hPlain hAfter =>
      rw [hStatement]
      refine TakesNumber.bind ?_ fun n _ => .pure _
      exact takesNumber_entryList (fun tokens entry later => reads_reservedEntry) hBefore hAfter
        (fun later => takesNumber_reservedEntry hSlot hPlain) "reserved" decl.reserved later

/-- The interval of a place lies inside that of reserved ranges. -/
theorem interval_le (hSlot : NumberSlot levels literal parser interval context tokens record) :
    Numeral.reservedNumbers.least ≤ interval.least ∧
      interval.greatest ≤ Numeral.reservedNumbers.greatest := by
  cases hSlot <;> decide

/-- Whatever token stands in a place for a number, and whatever follows, the member is accepted
just when the token denotes an integer of the interval of the place.  This integer is recorded.
Otherwise the token is reported.  The same integers are found with words of 64 bits, where an
operation that overflows is noticed, and the one that is not watched, the change of the sign,
never does. -/
theorem accepts (hSlot : NumberSlot levels literal parser interval context tokens record) :
    (∀ cursor : Cursor, ∀ later, cursor.rest = tokens ++ later →
      cursor.depth + levels ≤ cursor.limit →
        ((∃ value after, parser.run cursor = .ok value after) ↔
          ∃ n, Numeral.DenotesIn interval literal n) ∧
        (∀ n, Numeral.DenotesIn interval literal n →
          ∃ after, parser.run cursor = .ok (record n) after ∧ after.rest = later ∧
            after.depth = cursor.depth) ∧
        ((∀ n, ¬Numeral.DenotesIn interval literal n) →
          (parser.run cursor).Fails (.invalidNumber literal context))) ∧
      Numeral.within64? interval literal = Numeral.within? interval literal ∧
        ∀ digits word, Numeral.magnitude64? digits = some word →
          0 ≤ word.toInt ∧ (-word).toInt = -word.toInt := by
  refine ⟨?_, ?_, ?_⟩
  · intro cursor later hRest hLevels
    have hTakes := hSlot.takesNumber later
    refine ⟨hTakes.accepts_iff hRest hLevels, ?_, ?_⟩
    · intro n hNumber
      exact hTakes.reads n hNumber cursor hRest hLevels
    · intro hNone
      exact hTakes.fails hNone cursor hRest hLevels
  · obtain ⟨hLeast, hGreatest⟩ := hSlot.interval_le
    exact Numeral.within64?_eq hLeast hGreatest literal
  · intro digits word hRun
    exact Numeral.toInt_neg_of_magnitude64? hRun

/-- A field of a message with a number in hexadecimal digits, and one with the least number that
is too large. -/
theorem accepts_field :
    let parser := messageStatement (.new "M") ([], "int32")
    let start (literal : Token) := Cursor.ofTokens ["a", "=", literal, ";"] 64
    (∃ after, parser.run (start "+0xFf") =
        .ok { Message.new "M" with fields := [Field.plain "a" (.scalar "int32") 255] } after) ∧
      (parser.run (start "4294967296")).Fails (.invalidNumber "4294967296" "field number") := by
  intro parser start
  have hSlot : ∀ literal, NumberSlot 0 literal parser Numeral.fieldNumbers "field number"
      ["a", "=", literal, ";"] fun n =>
        { Message.new "M" with fields := [Field.plain "a" (.scalar "int32") n.toNat] } := by
    intro literal
    exact .field (.plain (by decide) (by decide)) (by decide) (by decide) (.inl ⟨rfl, rfl⟩)
  have hLevels : ∀ literal, (start literal).depth + 0 ≤ (start literal).limit := by
    intro literal
    exact Nat.zero_le 64
  constructor
  · have hNumber : Numeral.DenotesIn Numeral.fieldNumbers "+0xFf" 255 :=
      Numeral.denotesIn_iff.mpr (by decide)
    obtain ⟨-, hRecorded, -⟩ := (hSlot "+0xFf").accepts.1 (start "+0xFf") [] rfl (hLevels _)
    obtain ⟨after, hRun, -⟩ := hRecorded 255 hNumber
    exact ⟨after, hRun⟩
  · have hNone : ∀ n, ¬Numeral.DenotesIn Numeral.fieldNumbers "4294967296" n := by
      intro n hNumber
      have hWithin : Numeral.within? Numeral.fieldNumbers "4294967296" = none := by decide
      rw [Numeral.denotesIn_iff, hWithin] at hNumber
      cases hNumber
    obtain ⟨-, -, hReported⟩ :=
      (hSlot "4294967296").accepts.1 (start "4294967296") [] rfl (hLevels _)
    exact hReported hNone

end NumberSlot
end Grammar
end ProtoIdl
