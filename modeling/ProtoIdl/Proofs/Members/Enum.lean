import ProtoIdl.Proofs.Ahead.Construct
import ProtoIdl.Proofs.Comments.Declaration
import ProtoIdl.Proofs.Local.Join
import ProtoIdl.Proofs.Members.Alone
import ProtoIdl.Proofs.Members.Fold
import ProtoIdl.Proofs.Members.Loop
import ProtoIdl.Proofs.RoundTrip.Enum

/-!
# What the body of an enum means

The members of an enum may come in any order, with comments before them.  Each of them is what
its own parser accepts when it stands alone, and the enum is made of what these parsers answer,
in order.  An enum fails only where a name is given twice, at the first member that repeats one.

The tokens after the name of a value are looked at before any of them is taken.  This decides
which error is reported and never what is accepted.
-/

namespace ProtoIdl
namespace Grammar

open ProtoIdl.Parser

variable {levels : Nat} {comments tokens list rest later : List Token}

/-! ## Enum values -/

/-- Read an enum value with the comments before it. -/
def enumValue (comments : List String) : Parser EnumValue := do
  let first ← next "enum value name" "enum value"
  enumValueRest comments first

/-- The options of a value are a list in brackets that stands alone, or there is no list. -/
def WrittenOptions (levels : Nat) (list : List Token) (options : OptionMap) : Prop :=
  (list = [] ∧ options = ∅) ∨ fieldOptions.ReadsAlone levels list options

/-- A value is written as its name, an equals sign, its number, its options and a semicolon. -/
structure WrittenValue (levels : Nat) (comments : List String) (tokens : List Token)
    (value : EnumValue) : Prop where
  name : IsWord value.name
  comments_eq : value.comments = comments
  tokens_eq : ∃ literal list, tokens = value.name :: "=" :: literal :: (list ++ [";"]) ∧
    Numeral.within? Numeral.enumNumbers literal = some value.number ∧
    WrittenOptions levels list value.options

theorem reads_optionalFieldOptions {options : OptionMap}
    (hList : WrittenOptions levels list options) (later : List Token) :
    optionalFieldOptions.Reads levels (list ++ ";" :: later) options (";" :: later) := by
  rcases hList with ⟨rfl, rfl⟩ | hAlone
  · exact .bind reads_peek (.pure ∅)
  · obtain ⟨rest, rfl, hReads⟩ := exists_of_fieldOptions hAlone
    refine .bind reads_peek ?_
    rw [List.cons_append, List.head?_cons, if_pos rfl]
    exact hReads (";" :: later)

/-- The token after the number shows that the value has ended. -/
theorem exists_terminator_of_written {options : OptionMap}
    (hList : WrittenOptions levels list options) (later : List Token) :
    ∃ terminator tail, list ++ ";" :: later = terminator :: tail ∧
      (terminator = ";" ∨ terminator = "[") := by
  rcases hList with ⟨rfl, -⟩ | hAlone
  · exact ⟨";", later, rfl, .inl rfl⟩
  · obtain ⟨rest, rfl, -⟩ := exists_of_fieldOptions hAlone
    exact ⟨"[", rest ++ ";" :: later, rfl, .inr rfl⟩

/-- After its name a written value is read, whatever follows it. -/
theorem WrittenValue.reads {bodies : List String} {value : EnumValue}
    (hValue : WrittenValue levels bodies tokens value) :
    ∃ rest, tokens = value.name :: rest ∧
      ∀ later, (enumValueRest bodies value.name).Reads levels (rest ++ later) value later := by
  obtain ⟨hName, rfl, literal, list, rfl, hNumber, hList⟩ := hValue
  refine ⟨_, rfl, fun later => ?_⟩
  have hTokens : "=" :: literal :: (list ++ [";"]) ++ later =
      "=" :: literal :: (list ++ ";" :: later) := by simp
  obtain ⟨terminator, tail, hTail, hTerminator⟩ := exists_terminator_of_written hList later
  have hShape : enumValueShape.Reads levels ("=" :: literal :: (list ++ ";" :: later)) ()
      ("=" :: literal :: (list ++ ";" :: later)) := by
    rw [hTail]
    exact reads_enumValueShape hTerminator
  rw [hTokens]
  refine .bind hShape ?_
  refine .bind (reads_checkWord hName _) ?_
  refine .bind (reads_expect _ _) ?_
  refine .bind (reads_next _ _ _) ?_
  refine .bind (reads_numeral hNumber _) ?_
  refine .bind (reads_optionalFieldOptions hList later) ?_
  refine .bind (reads_expect _ _) ?_
  exact .pure _

/-- What the body of an enum value accepts: an equals sign, a number, perhaps options, and a
semicolon. -/
theorem parts_of_run_enumValueBody {bodies : List String} {first : Token} {value : EnumValue}
    {cursor after : Cursor} (hBody : (enumValueBody bodies first).run cursor = .ok value after) :
    IsWord value.name ∧ value.name = first ∧ value.comments = bodies ∧
      ∃ literal rest stop, cursor.rest = "=" :: literal :: rest ∧
        Numeral.within? Numeral.enumNumbers literal = some value.number ∧
        optionalFieldOptions.run ((cursor.past "=" (literal :: rest)).past literal rest) =
          .ok value.options stop ∧
        stop.rest = ";" :: after.rest := by
  obtain ⟨name, between, hName, hRun⟩ := run_bind_eq_ok_iff.mp hBody
  obtain ⟨hWord, rfl, rfl⟩ := of_run_checkWord hName
  obtain ⟨rest, hSign, hRun⟩ := exists_of_run_expect_bind hRun
  obtain ⟨literal, rest', hLiteral, hRun⟩ := exists_of_run_next_bind hRun
  obtain rfl : rest = literal :: rest' := hLiteral
  obtain ⟨number, between', hNumber, hRun⟩ := run_bind_eq_ok_iff.mp hRun
  obtain ⟨hValue, rfl⟩ := of_run_numeral hNumber
  obtain ⟨options, stop, hOptions, hRun⟩ := run_bind_eq_ok_iff.mp hRun
  obtain ⟨last, hLast, hRun⟩ := exists_of_run_expect_bind hRun
  cases hRun
  exact ⟨hWord, rfl, rfl, literal, rest', stop, hSign, hValue, hOptions, hLast⟩

/-- What the body of a value accepts has passed the look at the tokens after the name. -/
theorem run_enumValueShape_of_body {bodies : List String} {first : Token} {value : EnumValue}
    {cursor after : Cursor} (hRun : (enumValueBody bodies first).run cursor = .ok value after) :
    enumValueShape.run cursor = .ok () cursor := by
  obtain ⟨-, -, -, literal, rest, stop, hRest, -, hOptions, hStop⟩ :=
    parts_of_run_enumValueBody hRun
  have hTerminator : ∃ terminator tail, rest = terminator :: tail ∧
      (terminator = ";" ∨ terminator = "[") := by
    rw [run_optionalFieldOptions] at hOptions
    split at hOptions
    · next hHead =>
        obtain ⟨tail, hTail⟩ := List.head?_eq_some_iff.mp hHead
        exact ⟨"[", tail, hTail, .inr rfl⟩
    · obtain ⟨-, rfl⟩ := Reply.ok.inj hOptions
      exact ⟨";", after.rest, hStop, .inl rfl⟩
  obtain ⟨terminator, tail, rfl, hTerminator⟩ := hTerminator
  exact run_enumValueShape hRest hTerminator

/-- The look at the tokens ahead changes nothing in what is accepted. -/
theorem run_enumValueRest_iff {bodies : List String} {first : Token} {value : EnumValue}
    {cursor after : Cursor} :
    (enumValueRest bodies first).run cursor = .ok value after ↔
      (enumValueBody bodies first).run cursor = .ok value after := by
  constructor
  · intro hRun
    obtain ⟨_, between, hShape, hBody⟩ := run_bind_eq_ok_iff.mp hRun
    rwa [(exists_of_run_enumValueShape hShape).1] at hBody
  · intro hRun
    exact run_bind_eq_ok_iff.mpr ⟨(), cursor, run_enumValueShape_of_body hRun, hRun⟩

/-- A list that has been read in front of a semicolon stands alone. -/
theorem exists_of_run_optionalFieldOptions {options : OptionMap} {start stop : Cursor}
    (hRun : optionalFieldOptions.run start = .ok options stop) (hStop : stop.rest = [";"])
    (hDepth : start.depth = 0) :
    ∃ list, start.rest = list ++ [";"] ∧ WrittenOptions start.limit list options := by
  rw [run_optionalFieldOptions] at hRun
  split at hRun
  · obtain ⟨-, -, list, hList, -⟩ := onward_of_ok hRun
    rw [hStop] at hList
    refine ⟨list, hList, .inr ?_⟩
    -- the semicolon is taken away, and then the place does not matter
    have hTakes : fieldOptions.Takes start list [";"] options stop.depth :=
      ⟨stop, by rw [← hList]; exact hRun, hStop, rfl⟩
    obtain ⟨after, hShort, hEnd, -⟩ := hTakes.replace (fun _ => settled_fieldOptions)
      (fun _ => looksAhead_fieldOptions) []
    have hAlike : Cursor.Alike { start with rest := list ++ [] } (.ofTokens list start.limit) :=
      ⟨by simp [Cursor.ofTokens], hDepth.symm, rfl⟩
    obtain ⟨last, hAlone, hLast⟩ := traced_fieldOptions.answersAlike hAlike options after hShort
    exact ⟨last, hAlone, hLast.rest_eq.trans hEnd⟩
  · obtain ⟨rfl, rfl⟩ := Reply.ok.inj hRun
    exact ⟨[], hStop, .inl ⟨rfl, rfl⟩⟩

/-- The parser of a value accepts what is written as one, alone, and nothing else. -/
theorem readsAlone_enumValue_iff {bodies : List String} {value : EnumValue} :
    (enumValue bodies).ReadsAlone levels tokens value ↔
      WrittenValue levels bodies tokens value := by
  constructor
  · rintro ⟨after, hRun, hEnd⟩
    obtain ⟨first, rest, hTokens, hRest⟩ := exists_of_run_next_bind hRun
    obtain rfl : tokens = first :: rest := hTokens
    obtain ⟨hName, rfl, hComments, literal, tail, stop, hTail, hNumber, hOptions, hStop⟩ :=
      parts_of_run_enumValueBody (run_enumValueRest_iff.mp hRest)
    obtain rfl : rest = "=" :: literal :: tail := hTail
    rw [hEnd] at hStop
    obtain ⟨list, hList, hWritten⟩ := exists_of_run_optionalFieldOptions hOptions hStop rfl
    obtain rfl : tail = list ++ [";"] := hList
    exact ⟨hName, hComments, literal, list, rfl, hNumber, hWritten⟩
  · intro hValue
    obtain ⟨rest, rfl, hReads⟩ := hValue.reads
    have hRest := hReads []
    rw [List.append_nil] at hRest
    exact (Reads.bind (reads_next _ _ _) hRest).readsAlone

/-! ## Members -/

/-- A member of an enum, by what it stands for. -/
inductive EnumPart where
  | value (value : EnumValue)
  | option (binding : String × OptionValue)
  | reserved (entries : List Reserved)
  | empty

namespace EnumPart

/-- How a member is written after a run of comments: as its own parser accepts it when it stands
alone.  The name of a value is not a keyword of another member. -/
inductive Written (levels : Nat) (comments : List Token) : EnumPart → List Token → Prop
  | value {value : EnumValue} {tokens : List Token}
      (hAlone : (enumValue (comments.map Token.commentBody)).ReadsAlone levels tokens value)
      (hOption : value.name ≠ Keyword.option.text)
      (hReserved : value.name ≠ Keyword.reserved.text) :
      Written levels comments (.value value) tokens
  | option {binding : String × OptionValue} {tokens : List Token}
      (hAlone : Grammar.option.ReadsAlone levels tokens binding) :
      Written levels comments (.option binding) tokens
  | reserved {entries : List Reserved} {tokens : List Token}
      (hAlone : (Grammar.reserved maxEnumNumber).ReadsAlone levels tokens entries) :
      Written levels comments (.reserved entries) tokens
  | empty : Written levels comments .empty [";"]

/-- A value without options. -/
theorem Written.plain {name literal : Token} {number : Int} (comments : List Token)
    (hName : IsWord name) (hNumber : Numeral.within? Numeral.enumNumbers literal = some number)
    (hOption : name ≠ Keyword.option.text) (hReserved : name ≠ Keyword.reserved.text) :
    Written levels comments (.value ⟨name, number, ∅, comments.map Token.commentBody⟩)
      [name, "=", literal, ";"] :=
  .value (readsAlone_enumValue_iff.mpr
    ⟨hName, rfl, literal, [], rfl, hNumber, .inl ⟨rfl, rfl⟩⟩) hOption hReserved

/-- The name that a member gives, which no other member of its kind may give. -/
def name? : EnumPart → Option (Binding × String)
  | .value declared => some (.enumValue, declared.name)
  | .option binding => some (.option, binding.1)
  | _ => none

/-- The value that a member declares. -/
def value? : EnumPart → Option EnumValue
  | .value declared => some declared
  | _ => none

/-- The option that a member binds. -/
def binding? : EnumPart → Option (String × OptionValue)
  | .option binding => some binding
  | _ => none

/-- The entries that a member reserves. -/
def entries : EnumPart → List Reserved
  | .reserved entries => entries
  | _ => []

/-- The enum of some members, in order. -/
def declaration (name : String) (parts : List EnumPart) : EnumDecl :=
  ⟨name, parts.filterMap value?, parts.flatMap entries, ⟨parts.filterMap binding?⟩, []⟩

/-- Add a member to an enum. -/
def add (decl : EnumDecl) : EnumPart → Except ParseError EnumDecl
  | .value declared => addEnumValue decl declared
  | .option binding => do
      let options ← decl.options.bind binding.1 binding.2
      .ok { decl with options := options }
  | .reserved entries => .ok { decl with reserved := decl.reserved ++ entries }
  | .empty => .ok decl

end EnumPart

theorem enumMember_reserved (decl : EnumDecl) (bodies : List String) :
    enumMember decl (bodies, Keyword.reserved.text) =
      reservedRest maxEnumNumber decl.reserved >>=
        fun reserved => pure { decl with reserved := reserved } := rfl

/-- The members of an enum are read as they are written. -/
theorem givesMembers_enum (levels : Nat) :
    GivesMembers levels (EnumPart.Written levels) EnumPart.add enumMember where
  item {comments tokens part} hPart := by
    cases hPart with
    | @value value tokens hAlone hOption hReserved =>
        have hValue := readsAlone_enumValue_iff.mp hAlone
        obtain ⟨rest, rfl, hReads⟩ := hValue.reads
        refine ⟨value.name, rest, rfl, hValue.name.not_comment, hValue.name.ne (by decide),
          fun decl later => ⟨later, .inl rfl, ?_⟩⟩
        rw [enumMember_value hValue.name hOption hReserved]
        exact .bind_reads (hReads later) (.ofExcept (addEnumValue decl value))
    | @option binding tokens hAlone =>
        obtain ⟨rest, rfl, hGives⟩ := exists_gives_bindOption hAlone
        refine ⟨_, rest, rfl, by decide, by decide, fun decl later => ⟨later, .inl rfl, ?_⟩⟩
        exact (hGives decl.options later).map fun options => { decl with options := options }
    | @reserved entries tokens hAlone =>
        obtain ⟨rest, rfl, hReads⟩ := exists_of_reserved hAlone
        refine ⟨_, rest, rfl, by decide, by decide, fun decl later => ⟨later, .inl rfl, ?_⟩⟩
        rw [enumMember_reserved, reservedRest_eq]
        exact ((hReads later).map (decl.reserved ++ ·)).bind (.pure _)
    | empty =>
        exact ⟨";", [], rfl, by decide, by decide,
          fun decl later => ⟨later, .inl rfl, Reads.pure decl⟩⟩
  empty {comments rest part} hPart := by
    generalize hTokens : ";" :: rest = tokens at hPart
    cases hPart with
    | @value value tokens hAlone hOption hReserved =>
        have hValue := readsAlone_enumValue_iff.mp hAlone
        obtain ⟨rest', rfl, -⟩ := hValue.reads
        exact absurd (List.cons.inj hTokens).1.symm (hValue.name.ne (by decide))
    | @option binding tokens hAlone =>
        obtain ⟨rest', rfl, -⟩ := exists_of_option hAlone
        exact absurd (List.cons.inj hTokens).1 (by decide)
    | @reserved entries tokens hAlone =>
        obtain ⟨rest', rfl, -⟩ := exists_of_reserved hAlone
        exact absurd (List.cons.inj hTokens).1 (by decide)
    | empty => exact ⟨(List.cons.inj hTokens).2, fun _ => rfl⟩

/-! ## The enum of its members -/

/-- A value of a name that is there is refused. -/
theorem addEnumValue_of_mem {decl : EnumDecl} {value : EnumValue}
    (hMem : value.name ∈ decl.values.map EnumValue.name) :
    addEnumValue decl value = .error (.duplicate .enumValue value.name) := by
  obtain ⟨other, hOther, hName⟩ := List.mem_map.mp hMem
  have hSome : (decl.value? value.name).isSome = true := by
    rw [EnumDecl.value?, List.find?_isSome]
    exact ⟨other, hOther, by simpa using hName⟩
  rw [addEnumValue, if_pos hSome]

namespace EnumPart

variable {name repeated : String} {kind : Binding} {done parts : List EnumPart} {part : EnumPart}

theorem mem_names_value_iff :
    (Binding.enumValue, name) ∈ parts.filterMap name? ↔
      name ∈ (parts.filterMap value?).map EnumValue.name := by
  simp only [List.mem_map, List.mem_filterMap]
  constructor
  · rintro ⟨part, hPart, hName⟩
    cases part with
    | value declared =>
        cases hName
        exact ⟨declared, ⟨_, hPart, rfl⟩, rfl⟩
    | _ => cases hName
  · rintro ⟨declared, ⟨part, hPart, hValue⟩, rfl⟩
    cases part with
    | value other =>
        cases hValue
        exact ⟨_, hPart, rfl⟩
    | _ => cases hValue

theorem mem_names_option_iff :
    (Binding.option, name) ∈ parts.filterMap name? ↔
      name ∈ (parts.filterMap binding?).map Prod.fst := by
  simp only [List.mem_map, List.mem_filterMap]
  constructor
  · rintro ⟨part, hPart, hName⟩
    cases part with
    | option binding =>
        cases hName
        exact ⟨binding, ⟨_, hPart, rfl⟩, rfl⟩
    | _ => cases hName
  · rintro ⟨binding, ⟨part, hPart, hBinding⟩, rfl⟩
    cases part with
    | option other =>
        cases hBinding
        exact ⟨_, hPart, rfl⟩
    | _ => cases hBinding

/-- A member that repeats no name is added to the members before it. -/
theorem add_declaration (name : String) (done : List EnumPart) (part : EnumPart)
    (hNodup : ((done ++ [part]).filterMap name?).Nodup) :
    (done.filterMap name?).Nodup ∧
      add (declaration name done) part = .ok (declaration name (done ++ [part])) := by
  obtain ⟨hDone, hNew⟩ := nodup_filterMap_concat.mp hNodup
  refine ⟨hDone, ?_⟩
  cases part with
  | value declared =>
      have hName := hNew _ rfl
      rw [mem_names_value_iff] at hName
      rw [add, addEnumValue_of_not_mem hName]
      simp [declaration, value?, binding?, entries]
  | option binding =>
      have hName := hNew _ rfl
      rw [mem_names_option_iff] at hName
      have hBind : (declaration name done).options.bind binding.1 binding.2 =
          .ok ((declaration name done).options.append binding.1 binding.2) :=
        OptionMap.bind_of_not_mem hName
      rw [add, hBind]
      simp [declaration, value?, binding?, entries, OptionMap.append, bind, Except.bind]
  | reserved entries => simp [add, declaration, value?, binding?, EnumPart.entries]
  | empty => simp [add, declaration, value?, binding?, entries]

/-- A member that repeats a name is refused. -/
theorem add_repeated (name : String) (hName : part.name? = some (kind, repeated))
    (hMem : (kind, repeated) ∈ done.filterMap name?) :
    add (declaration name done) part = .error (.duplicate kind repeated) := by
  cases part with
  | value declared =>
      cases hName
      exact addEnumValue_of_mem (mem_names_value_iff.mp hMem)
  | option binding =>
      cases hName
      have hBind : (declaration name done).options.bind binding.1 binding.2 =
          .error (.duplicate .option binding.1) :=
        OptionMap.bind_of_mem (mem_names_option_iff.mp hMem)
      rw [add, hBind]
      rfl
  | _ => cases hName

/-- Members that repeat no name make the enum that they declare. -/
theorem foldlM_add (name : String) (hNodup : (parts.filterMap name?).Nodup) :
    parts.foldlM add (EnumDecl.new name) = .ok (declaration name parts) :=
  foldlM_of_fits (fun parts => (parts.filterMap name?).Nodup) (add_declaration name) hNodup

/-- The first member that repeats a name is refused. -/
theorem foldlM_add_repeated (name : String) {todo : List EnumPart}
    (hDone : (done.filterMap name?).Nodup) (hName : part.name? = some (kind, repeated))
    (hMem : (kind, repeated) ∈ done.filterMap name?) :
    (done ++ part :: todo).foldlM add (EnumDecl.new name) = .error (.duplicate kind repeated) :=
  foldlM_of_fault (fun parts => (parts.filterMap name?).Nodup) (add_declaration name) hDone
    (add_repeated name hName hMem)

end EnumPart

/-! ## Without the look ahead -/

/-- Read a member of an enum, with a parser for values. -/
def enumMemberBy (readValue : List String → Token → Parser EnumValue) (decl : EnumDecl)
    (head : List String × Token) : Parser EnumDecl :=
  if head.2 = ";" then pure decl
  else
    match Keyword.ofToken? head.2 with
    | some .option => do
        let options ← bindOptionRest decl.options
        return { decl with options := options }
    | some .reserved => do
        let reserved ← reservedRest maxEnumNumber decl.reserved
        return { decl with reserved := reserved }
    | _ => do
        let value ← readValue head.1 head.2
        ofExcept (addEnumValue decl value)

/-- Read an enum, with a parser for values. -/
def enumBy (readValue : List String → Token → Parser EnumValue) : Parser EnumDecl := do
  expect Keyword.enum.text "enum"
  let name ← word "enum name" "enum"
  expect Token.openBrace "enum"
  let decl ← loop (memberHead "enum") (enumMemberBy readValue) (.new name)
  let _ ← eat ";"
  return decl

theorem enum_eq_enumBy : enum = enumBy enumValueRest := rfl

theorem sameAnswers_enumMemberBy (decl : EnumDecl) (head : List String × Token) :
    (enumMemberBy enumValueRest decl head).SameAnswers (enumMemberBy enumValueBody decl head) := by
  unfold enumMemberBy
  split
  · exact .refl _
  · split
    · exact .refl _
    · exact .refl _
    · exact .bind_left (fun _ _ _ => run_enumValueRest_iff) _

/-- An enum is accepted as it would be if no token were looked at before it is taken. -/
theorem sameAnswers_enumBy : enum.SameAnswers (enumBy enumValueBody) := by
  rw [enum_eq_enumBy]
  refine .bind _ fun _ => ?_
  refine .bind _ fun name => ?_
  refine .bind _ fun _ => ?_
  refine .bind_left ?_ _
  exact .loop sameAnswers_enumMemberBy _

/-! ## Main result -/

/-- An enum means its members.  With members that are written as their own parsers accept them
alone, in any order and after any comments, it is the enum of these members, each value with the
comments before it, whatever follows the enum; or a name is given twice, and then the fault is
that of the first member that repeats one.  What is accepted does not depend on the look at the
tokens after the name of a value. -/
theorem enum_gives_members {name : String} {parts : List EnumPart} {tokens closing : List Token}
    (hName : IsWord name) (hWritten : WrittenMembers (EnumPart.Written levels) parts tokens)
    (hClosing : ∀ token ∈ closing, token.isComment = true) :
    (∀ later,
      ((parts.filterMap EnumPart.name?).Nodup →
        enum.Reads levels
          (Keyword.enum.text :: name :: Token.openBrace ::
            (tokens ++ (closing ++ Token.closeBrace :: later)))
          (EnumPart.declaration name parts) (dropSemicolon later)) ∧
      (¬(parts.filterMap EnumPart.name?).Nodup →
        ∃ kind repeated, RepeatsFirst (kind, repeated) (parts.filterMap EnumPart.name?) ∧
          enum.FailsOn levels
            (Keyword.enum.text :: name :: Token.openBrace ::
              (tokens ++ (closing ++ Token.closeBrace :: later)))
            (.duplicate kind repeated))) ∧
    ∀ cursor decl after, enum.run cursor = .ok decl after ↔
      (enumBy enumValueBody).run cursor = .ok decl after := by
  refine ⟨fun later => ?_, sameAnswers_enumBy⟩
  have hBody := gives_members (givesMembers_enum levels) hWritten hClosing "enum"
    (EnumDecl.new name) later
  have hEnum : enum.Gives levels
      (Keyword.enum.text :: name :: Token.openBrace ::
        (tokens ++ (closing ++ Token.closeBrace :: later)))
      (parts.foldlM EnumPart.add (EnumDecl.new name)) (dropSemicolon later) := by
    refine .bind_reads (reads_expect _ _) (.bind_reads (reads_word hName _ _)
      (.bind_reads (reads_expect _ _) ?_))
    exact hBody.bind_keeps reads_dropSemicolon
  refine ⟨fun hNodup => ?_, fun hRepeated => ?_⟩
  · rwa [EnumPart.foldlM_add name hNodup] at hEnum
  · obtain ⟨done, part, todo, ⟨kind, repeated⟩, rfl, hDone, hPart, hMem⟩ :=
      exists_first_repeated hRepeated
    rw [EnumPart.foldlM_add_repeated name hDone hPart hMem] at hEnum
    have hNames : (done ++ part :: todo).filterMap EnumPart.name? =
        done.filterMap EnumPart.name? ++ (kind, repeated) :: todo.filterMap EnumPart.name? := by
      rw [List.filterMap_append, List.filterMap_cons_some hPart]
    exact ⟨kind, repeated, ⟨_, _, hNames, hDone, hMem⟩, hEnum⟩

/-- An enum with members of all kinds is read, and one that declares a value twice is refused. -/
theorem enum_gives_members_color :
    enum.Reads 0
      ["enum", "Color", Token.openBrace, "// warm", "RED", "=", "0", "[", "deprecated", "=", "true",
        "]", ";", ";", "option", "allow_alias", "=", "true", ";", "// gone", "reserved", "5", "to",
        "max", ";", "BLUE", "=", "-0x1", ";", "// end", Token.closeBrace, ";", "enum"]
      ⟨"Color", [⟨"RED", 0, ⟨[("deprecated", .bool true)]⟩, ["warm"]⟩, ⟨"BLUE", -1, ∅, []⟩],
        [.range 5 2147483647], ⟨[("allow_alias", .bool true)]⟩, []⟩ ["enum"] ∧
    enum.FailsOn 0
      ["enum", "Color", Token.openBrace, "RED", "=", "0", ";", "// again", "RED", "=", "-0x1", ";",
        Token.closeBrace]
      (.duplicate .enumValue "RED") := by
  have hName : IsWord "Color" := by decide
  have hNone : ∀ token ∈ [], Token.isComment token = true := List.forall_mem_nil _
  constructor
  · have hList : fieldOptions.ReadsAlone 0 ["[", "deprecated", "=", "true", "]"]
        ⟨[("deprecated", .bool true)]⟩ := by
      simp only [ReadsAlone, fieldOptions, commaList, loop_eq]
      exact ⟨_, rfl, rfl⟩
    have hRed : EnumPart.Written 0 ["// warm"]
        (.value ⟨"RED", 0, ⟨[("deprecated", .bool true)]⟩, ["warm"]⟩)
        ["RED", "=", "0", "[", "deprecated", "=", "true", "]", ";"] := by
      refine .value (readsAlone_enumValue_iff.mpr ?_) (by decide) (by decide)
      exact ⟨by decide, by decide, "0", _, rfl, by decide, .inr hList⟩
    have hOption : EnumPart.Written 0 [] (.option ("allow_alias", .bool true))
        ["option", "allow_alias", "=", "true", ";"] := .option ⟨_, rfl, rfl⟩
    have hReserved : EnumPart.Written 0 ["// gone"] (.reserved [.range 5 2147483647])
        ["reserved", "5", "to", "max", ";"] := by
      refine .reserved ?_
      simp only [ReadsAlone, reserved, reservedRest, commaList, loop_eq]
      exact ⟨_, rfl, rfl⟩
    have hBlue : EnumPart.Written 0 [] (.value ⟨"BLUE", -1, ∅, []⟩) ["BLUE", "=", "-0x1", ";"] :=
      .plain [] (by decide) (by decide) (by decide) (by decide)
    have hMembers := WrittenMembers.cons (by decide) hRed <| .cons hNone .empty <|
      .cons hNone hOption <| .cons (by decide) hReserved <| .cons hNone hBlue .nil
    have hClosing : ∀ token ∈ ["// end"], Token.isComment token = true := by decide
    exact ((enum_gives_members hName hMembers hClosing).1 [";", "enum"]).1 (by decide)
  · have hFirst : EnumPart.Written 0 [] (.value ⟨"RED", 0, ∅, []⟩) ["RED", "=", "0", ";"] :=
      .plain [] (by decide) (by decide) (by decide) (by decide)
    have hAgain : EnumPart.Written 0 ["// again"] (.value ⟨"RED", -1, ∅, ["again"]⟩)
        ["RED", "=", "-0x1", ";"] :=
      .plain ["// again"] (by decide) (by decide) (by decide) (by decide)
    have hMembers := WrittenMembers.cons hNone hFirst <| .cons (by decide) hAgain .nil
    obtain ⟨kind, repeated, hFirstTwice, hFails⟩ :=
      ((enum_gives_members hName hMembers hNone).1 []).2 (by decide)
    -- both members declare the same name, so there is only one that can be repeated
    have hRepeated : (kind, repeated) = (Binding.enumValue, "RED") :=
      (List.mem_pair.mp hFirstTwice.mem).elim id id
    cases hRepeated
    exact hFails

end Grammar
end ProtoIdl
