import ProtoIdl.Grammar.Message
import ProtoIdl.Proofs.RoundTrip.Enum
import ProtoIdl.Proofs.RoundTrip.Field

/-!
# Reading back messages

The body of a message is isolated first, so its members are read back from the tokens
inside its braces alone.  Each kind of member has its section, and a nested message or an
`extend` block is read back inside of its own body, one level down.
-/

namespace ProtoIdl
namespace Grammar

open ProtoIdl.Parser

variable {levels : Nat} {rest : List Token}

/-! ## Bodies -/

/-- With `message` read so far, the tokens left inside its body are read to `final`. -/
def MembersRead (levels : Nat) (final message : Message) (ahead : List Token) : Prop :=
  (members message).Reads levels ahead final []

section Members

variable {message grown final : Message} {ahead : List Token}

theorem membersRead_done (message : Message) : MembersRead levels message message [] := by
  rw [MembersRead, members_eq]
  exact .bind reads_statementHead_done (.pure message)

/-- A member that is no block, and then the others. -/
theorem membersRead_member {comments : List String} {token : Token}
    (hComments : PrintableComments comments) (hComment : token.isComment = false)
    (hKind : BlockKind.ofToken? token = none)
    (hMember : (messageMember message (comments, token)).Reads levels ahead grown rest)
    (hRest : MembersRead levels final grown rest) :
    MembersRead levels final message (commentTokens comments ++ token :: ahead) := by
  rw [MembersRead, members_eq]
  refine .bind (reads_statementHead hComments hComment) ?_
  simp only [hKind]
  exact .bind hMember hRest

/-- A block is its name and its body, which is read one level down. -/
theorem reads_block (kind : BlockKind) {name : String} {body : List Token} {inner : α}
    {read : String → Parser α} (hName : IsWord name) (hBody : Cursor.Whole body)
    (hInner : (read name).Reads levels body inner []) :
    (block kind read).Reads (levels + 1) (name :: (braced body ++ rest)) (name, inner) rest := by
  have hTokens : braced body ++ rest =
      Token.openBrace :: (body ++ Token.closeBrace :: rest) := by
    simp [braced]
  rw [hTokens]
  refine .bind (reads_word hName _ _) ?_
  refine .bind (reads_expect _ _) ?_
  refine .bind (reads_inside hBody hInner _) ?_
  exact .pure _

/-- A block is read inside of its body, one level down, and then the other members are. -/
theorem membersRead_block (kind : BlockKind) {comments : List String} {token : Token}
    {name : String} {body : List Token} {inner : Message} (hComments : PrintableComments comments)
    (hComment : token.isComment = false) (hKind : BlockKind.ofToken? token = some kind)
    (hName : IsWord name) (hBody : Cursor.Whole body)
    (hInner : MembersRead levels inner (.new name) body)
    (hRest : MembersRead (levels + 1) final (addBlock message kind comments name inner) rest) :
    MembersRead (levels + 1) final message
      (commentTokens comments ++ token :: name :: (braced body ++ rest)) := by
  have hBlock : (block kind fun name => members (.new name)).Reads (levels + 1)
      (name :: (braced body ++ rest)) (name, inner) rest := reads_block kind hName hBody hInner
  rw [MembersRead, members_eq]
  refine .bind (reads_statementHead hComments hComment) ?_
  simp only [hKind]
  exact .bind hBlock hRest

/-! ## Members of each kind -/

/-- A keyword that can start a field starts a field in a message. -/
theorem messageMember_field {keyword : Keyword}
    (hKeyword : keyword ∈ [Keyword.map, .required, .repeated, .optional]) (message : Message)
    (comments : List String) :
    messageMember message (comments, keyword.text) =
        (fieldRest comments keyword.text >>= fun field =>
          pure { message with fields := message.fields ++ [field] }) ∧
      keyword.text.isComment = false ∧ BlockKind.ofToken? keyword.text = none := by
  simp only [List.mem_cons, List.not_mem_nil, or_false] at hKeyword
  rcases hKeyword with rfl | rfl | rfl | rfl <;> exact ⟨rfl, by decide, by decide⟩

theorem membersRead_enum {decl : EnumDecl} (hDecl : decl.Printable)
    (hNesting : decl.nesting ≤ levels) (hLater : NoSemicolonFirst rest)
    (hRest : MembersRead levels final { message with enums := message.enums ++ [decl] } rest) :
    MembersRead levels final message (decl.tokens ++ rest) := by
  rw [EnumDecl.tokens, List.append_assoc, List.cons_append, List.cons_append]
  exact membersRead_member hDecl.comments (by decide) (by decide)
    (.bind (reads_enumRest hDecl hNesting hLater) (.pure _)) hRest

/-- A field outside of any group. -/
theorem membersRead_field {field : Field} (hField : field.Printable)
    (hNesting : field.options.nesting ≤ levels) (hGroup : field.oneof = none)
    (hRest : MembersRead levels final { message with fields := message.fields ++ [field] }
      rest) :
    MembersRead levels final message (field.tokens ++ rest) := by
  obtain ⟨hMember, hComment, hKind⟩ :=
    messageMember_field field.leadKeyword_mem message field.comments
  have hPlain : { field with oneof := none } = field := by
    rw [← hGroup]
  have hReads : (fieldRest field.comments field.leadKeyword.text).Reads levels
      (field.leadTokens ++ (field.name :: field.tailTokens) ++ rest) field rest := by
    conv => arg 4; rw [← hPlain]
    exact reads_fieldRest hField hNesting
  rw [field.tokens_eq, List.append_assoc, List.cons_append]
  refine membersRead_member hField.comments hComment hKind ?_ hRest
  rw [hMember]
  exact .bind hReads (.pure _)

/-- A group of fields. -/
theorem membersRead_oneof {group : String} (hName : IsWord group) {run : List Field}
    (hRun : ∀ field ∈ run, field.Printable ∧ field.options.nesting ≤ levels ∧
      field.oneof = some group)
    (hRest : MembersRead levels final { message with fields := message.fields ++ run } rest) :
    MembersRead levels final message
      (Keyword.oneof.text :: group :: (braced (run.flatMap Field.tokens) ++ rest)) :=
  membersRead_member printableComments_nil (by decide) (by decide)
    (.bind (reads_oneofRest hName hRun _) (.pure _)) hRest

theorem membersRead_extension {range : ExtensionRange} (hRange : range.Printable)
    (hRest : MembersRead levels final
      { message with extensions := message.extensions ++ [range] } rest) :
    MembersRead levels final message (range.tokens ++ rest) := by
  rw [tokens_extensionRange]
  exact membersRead_member printableComments_nil (by decide) (by decide)
    (.bind (reads_extensionsRest hRange _) (.pure _)) hRest

theorem membersRead_reserved {entry : Reserved} (hEntry : entry.Printable)
    (hRest : MembersRead levels final
      { message with reserved := message.reserved ++ [entry] } rest) :
    MembersRead levels final message (entry.tokens ++ rest) := by
  rw [tokens_reserved]
  exact membersRead_member printableComments_nil (by decide) (by decide)
    (.bind (reads_reservedRest hEntry _ _) (.pure _)) hRest

theorem membersRead_option {options : OptionMap}
    (hOption : (bindOptionRest message.options).Reads levels ahead options rest)
    (hRest : MembersRead levels final { message with options := options } rest) :
    MembersRead levels final message (Keyword.option.text :: ahead) :=
  membersRead_member printableComments_nil (by decide) (by decide) (.bind hOption (.pure _)) hRest

end Members

/-! ## Nested bodies -/

/-- The members of the message are read back inside of its body. -/
structure ReadsBack (message : Message) : Prop where
  whole : Cursor.Whole message.bodyTokens
  members : ∀ levels, message.nesting ≤ levels + 1 →
    MembersRead levels { message with comments := [] } (.new message.name) message.bodyTokens

section Blocks

variable {message final : Message}

theorem membersRead_message {inner : Message} (hName : IsWord inner.name)
    (hComments : PrintableComments inner.comments) (hBack : ReadsBack inner)
    (hNesting : inner.nesting ≤ levels)
    (hRest : MembersRead levels final { message with messages := message.messages ++ [inner] }
      rest) :
    MembersRead levels final message (inner.tokens ++ rest) := by
  have hDeep := inner.nesting_eq
  -- the body takes a level of its own
  obtain ⟨levels, rfl⟩ : ∃ fewer, levels = fewer + 1 := ⟨levels - 1, by omega⟩
  have hAdded : addBlock message .message inner.comments inner.name
      { inner with comments := [] } = { message with messages := message.messages ++ [inner] } := by
    cases inner
    rfl
  rw [Message.tokens, List.append_assoc, List.cons_append, List.cons_append]
  refine membersRead_block .message hComments (by decide) (by decide) hName hBack.whole
    (hBack.members levels hNesting) ?_
  rw [hAdded]
  exact hRest

/-- The body of an `extend` block is read back under the name of its target. -/
theorem membersRead_extendBody {block : ExtendBlock} (hBlock : block.Printable)
    (hBack : ReadsBack block.body) (hNesting : block.nesting ≤ levels + 1) :
    MembersRead levels block.body (.new block.target) block.body.bodyTokens := by
  rcases block with ⟨target, body⟩
  have hTarget : body.name = target := hBlock.name
  have hSame : { body with comments := [] } = body := by
    have hComments : body.comments = [] := hBlock.comments
    cases body
    rw [← hComments]
  have hMembers : MembersRead levels { body with comments := [] } (.new body.name)
      body.bodyTokens := hBack.members levels hNesting
  rwa [hSame, hTarget] at hMembers

/-- An `extend` block takes one level at least. -/
theorem one_le_nesting_extend (block : ExtendBlock) : 1 ≤ block.nesting := by
  rcases block with ⟨target, body⟩
  have hDeep := body.nesting_eq
  rw [ExtendBlock.nesting]
  omega

theorem membersRead_extend {block : ExtendBlock} (hBlock : block.Printable)
    (hBack : ReadsBack block.body) (hNesting : block.nesting ≤ levels)
    (hRest : MembersRead levels final
      { message with extendBlocks := message.extendBlocks ++ [block] } rest) :
    MembersRead levels final message (block.tokens ++ rest) := by
  have hDeep := one_le_nesting_extend block
  obtain ⟨levels, rfl⟩ : ∃ fewer, levels = fewer + 1 := ⟨levels - 1, by omega⟩
  refine membersRead_block .extend printableComments_nil (by decide) (by decide)
    hBlock.isWord_target hBack.whole (membersRead_extendBody hBlock hBack hNesting) ?_
  cases block
  exact hRest

end Blocks

/-! ## Sections -/

theorem noSemicolonFirst_message (message : Message) : NoSemicolonFirst message.tokens :=
  (noSemicolonFirst_commentTokens _).append (noSemicolonFirst_cons (by decide))

theorem noSemicolonFirst_extend (block : ExtendBlock) : NoSemicolonFirst block.tokens :=
  noSemicolonFirst_cons (by decide)

theorem noSemicolonFirst_run (run : List Field) : NoSemicolonFirst (Field.runTokens run) := by
  unfold Field.runTokens
  split
  · exact noSemicolonFirst_nil
  · split
    · exact noSemicolonFirst_flatMap fun field _ => noSemicolonFirst_field field
    · exact noSemicolonFirst_cons (by decide)

theorem noSemicolonFirst_listTokens (fields : List Field) :
    NoSemicolonFirst (Field.listTokens fields) :=
  noSemicolonFirst_flatMap fun run _ => noSemicolonFirst_run run

/-- A field of a run is one of the fields. -/
theorem mem_of_mem_run {fields run : List Field} {field : Field}
    (hRun : run ∈ fields.splitBy Field.sameGroup) (hMem : field ∈ run) : field ∈ fields := by
  rw [← List.flatten_splitBy Field.sameGroup fields]
  exact List.mem_flatten.mpr ⟨run, hRun, hMem⟩

section Sections

variable {final : Message} {name : String} {messages : List Message} {enums : List EnumDecl}
  {fields : List Field} {blocks : List ExtendBlock} {extensions : List ExtensionRange}
  {reserved : List Reserved}

theorem membersRead_messages
    (hMessages : ∀ inner ∈ messages, inner.Printable ∧ ReadsBack inner)
    (hNesting : deepest Message.nesting messages ≤ levels) (hLater : NoSemicolonFirst rest)
    (hRest : MembersRead levels final ⟨name, messages, [], [], [], [], [], ∅, []⟩ rest) :
    MembersRead levels final (.new name) (messages.flatMap Message.tokens ++ rest) := by
  refine reads_flatMap (MembersRead levels final)
    (fun done => ⟨name, done, [], [], [], [], [], ∅, []⟩) ?_
    (fun inner _ => noSemicolonFirst_message inner) hLater hRest
  intro done inner todo hSplit after _ hAfter
  have hMem : inner ∈ messages := List.mem_iff_append.mpr ⟨done, todo, hSplit⟩
  obtain ⟨hPrintable, hBack⟩ := hMessages inner hMem
  have hParts := (inner.printable_iff.mp hPrintable).1
  exact membersRead_message hParts.name hParts.comments hBack
    (le_trans (le_deepest Message.nesting hMem) hNesting) hAfter

theorem membersRead_enums (hEnums : ∀ decl ∈ enums, decl.Printable)
    (hNesting : deepest EnumDecl.nesting enums ≤ levels) (hLater : NoSemicolonFirst rest)
    (hRest : MembersRead levels final ⟨name, messages, enums, [], [], [], [], ∅, []⟩ rest) :
    MembersRead levels final ⟨name, messages, [], [], [], [], [], ∅, []⟩
      (enums.flatMap EnumDecl.tokens ++ rest) := by
  refine reads_flatMap (MembersRead levels final)
    (fun done => ⟨name, messages, done, [], [], [], [], ∅, []⟩) ?_
    (fun decl _ => noSemicolonFirst_enum decl) hLater hRest
  intro done decl todo hSplit after hAfterFirst hAfter
  have hMem : decl ∈ enums := List.mem_iff_append.mpr ⟨done, todo, hSplit⟩
  exact membersRead_enum (hEnums decl hMem)
    (le_trans (le_deepest EnumDecl.nesting hMem) hNesting) hAfterFirst hAfter

/-- A run of fields of one group, or of fields outside of any group. -/
theorem membersRead_run {run before : List Field}
    (hRun : run ∈ fields.splitBy Field.sameGroup)
    (hFields : ∀ field ∈ run, field.Printable ∧ field.options.nesting ≤ levels)
    (hLater : NoSemicolonFirst rest)
    (hRest : MembersRead levels final
      ⟨name, messages, enums, before ++ run, [], [], [], ∅, []⟩ rest) :
    MembersRead levels final ⟨name, messages, enums, before, [], [], [], ∅, []⟩
      (Field.runTokens run ++ rest) := by
  cases run with
  | nil => exact absurd rfl (List.ne_nil_of_mem_splitBy hRun)
  | cons first run =>
      have hSame := oneof_eq_of_mem_run hRun
      cases hGroup : first.oneof with
      | some group =>
          -- the whole run is one member, the group
          have hName := ((hFields first (by simp)).1.group group hGroup).1
          rw [Field.runTokens_of_group hGroup]
          refine membersRead_oneof hName ?_ hRest
          intro field hMem
          obtain ⟨hPrintable, hLevels⟩ := hFields field hMem
          exact ⟨hPrintable, hLevels, (hSame field hMem).trans hGroup⟩
      | none =>
          -- every field of the run is a member by itself
          have hStart : MembersRead levels final
              ⟨name, messages, enums, before ++ [], [], [], [], ∅, []⟩
              ((first :: run).flatMap Field.tokens ++ rest) := by
            refine reads_flatMap (MembersRead levels final)
              (fun done => ⟨name, messages, enums, before ++ done, [], [], [], ∅, []⟩) ?_
              (fun field _ => noSemicolonFirst_field field) hLater hRest
            intro done field todo hSplit after _ hAfter
            have hMem : field ∈ first :: run := List.mem_iff_append.mpr ⟨done, todo, hSplit⟩
            obtain ⟨hPrintable, hLevels⟩ := hFields field hMem
            apply membersRead_field hPrintable hLevels ((hSame field hMem).trans hGroup)
            simpa using hAfter
          rw [Field.runTokens_of_no_group hGroup]
          simpa using hStart

theorem membersRead_fields (hFields : ∀ field ∈ fields, field.Printable)
    (hNesting : deepest (fun field => field.options.nesting) fields ≤ levels)
    (hLater : NoSemicolonFirst rest)
    (hRest : MembersRead levels final ⟨name, messages, enums, fields, [], [], [], ∅, []⟩ rest) :
    MembersRead levels final ⟨name, messages, enums, [], [], [], [], ∅, []⟩
      (Field.listTokens fields ++ rest) := by
  -- the runs are read one by one, and their fields end up in one list
  have hAll : (fields.splitBy Field.sameGroup).flatten = fields := List.flatten_splitBy _ _
  refine reads_flatMap (MembersRead levels final)
    (fun done => ⟨name, messages, enums, done.flatten, [], [], [], ∅, []⟩) ?_
    (fun run _ => noSemicolonFirst_run run) hLater (by rwa [hAll])
  intro done run todo hSplit after hAfterFirst hAfter
  have hRun : run ∈ fields.splitBy Field.sameGroup := List.mem_iff_append.mpr ⟨done, todo, hSplit⟩
  refine membersRead_run hRun ?_ hAfterFirst (by simpa using hAfter)
  intro field hMem
  have hField := mem_of_mem_run hRun hMem
  exact ⟨hFields field hField,
    le_trans (le_deepest (fun field => field.options.nesting) hField) hNesting⟩

theorem membersRead_extends
    (hBlocks : ∀ block ∈ blocks, block.Printable ∧ ReadsBack block.body)
    (hNesting : deepest ExtendBlock.nesting blocks ≤ levels) (hLater : NoSemicolonFirst rest)
    (hRest : MembersRead levels final ⟨name, messages, enums, fields, blocks, [], [], ∅, []⟩
      rest) :
    MembersRead levels final ⟨name, messages, enums, fields, [], [], [], ∅, []⟩
      (blocks.flatMap ExtendBlock.tokens ++ rest) := by
  refine reads_flatMap (MembersRead levels final)
    (fun done => ⟨name, messages, enums, fields, done, [], [], ∅, []⟩) ?_
    (fun block _ => noSemicolonFirst_extend block) hLater hRest
  intro done block todo hSplit after _ hAfter
  have hMem : block ∈ blocks := List.mem_iff_append.mpr ⟨done, todo, hSplit⟩
  obtain ⟨hPrintable, hBack⟩ := hBlocks block hMem
  exact membersRead_extend hPrintable hBack
    (le_trans (le_deepest ExtendBlock.nesting hMem) hNesting) hAfter

theorem membersRead_extensions (hExtensions : ∀ range ∈ extensions, range.Printable)
    (hLater : NoSemicolonFirst rest)
    (hRest : MembersRead levels final
      ⟨name, messages, enums, fields, blocks, extensions, [], ∅, []⟩ rest) :
    MembersRead levels final ⟨name, messages, enums, fields, blocks, [], [], ∅, []⟩
      (extensions.flatMap ExtensionRange.tokens ++ rest) := by
  refine reads_flatMap (MembersRead levels final)
    (fun done => ⟨name, messages, enums, fields, blocks, done, [], ∅, []⟩) ?_
    (fun range _ => noSemicolonFirst_cons (by decide)) hLater hRest
  intro done range todo hSplit after _ hAfter
  exact membersRead_extension (hExtensions range (List.mem_iff_append.mpr ⟨done, todo, hSplit⟩)) hAfter

theorem membersRead_entries (hReserved : ∀ entry ∈ reserved, entry.Printable)
    (hLater : NoSemicolonFirst rest)
    (hRest : MembersRead levels final
      ⟨name, messages, enums, fields, blocks, extensions, reserved, ∅, []⟩ rest) :
    MembersRead levels final ⟨name, messages, enums, fields, blocks, extensions, [], ∅, []⟩
      (reserved.flatMap Reserved.tokens ++ rest) := by
  refine reads_flatMap (MembersRead levels final)
    (fun done => ⟨name, messages, enums, fields, blocks, extensions, done, ∅, []⟩) ?_
    (fun entry _ => noSemicolonFirst_reserved entry) hLater hRest
  intro done entry todo hSplit after _ hAfter
  exact membersRead_reserved (hReserved entry (List.mem_iff_append.mpr ⟨done, todo, hSplit⟩)) hAfter

theorem membersRead_options {options : OptionMap} (hDeclared : options.Declared)
    (hNesting : options.nesting ≤ levels) (hLater : NoSemicolonFirst rest)
    (hRest : MembersRead levels final
      ⟨name, messages, enums, fields, blocks, extensions, reserved, options, []⟩ rest) :
    MembersRead levels final
      ⟨name, messages, enums, fields, blocks, extensions, reserved, ∅, []⟩
      (options.statements ++ rest) := by
  refine reads_statements (MembersRead levels final)
    (fun bound => ⟨name, messages, enums, fields, blocks, extensions, reserved, bound, []⟩)
    hDeclared hNesting ?_ hLater hRest
  intro bound grown ahead after hOption hAfter
  exact membersRead_option hOption hAfter

end Sections

/-! ## Whole messages -/

theorem whole_listTokens {fields : List Field} (hFields : ∀ field ∈ fields, field.Printable) :
    Cursor.Whole (Field.listTokens fields) := by
  refine .flatMap fun run hRun => ?_
  have hTokens : Cursor.Whole (run.flatMap Field.tokens) :=
    .flatMap fun field hMem => whole_field (hFields field (mem_of_mem_run hRun hMem))
  cases run with
  | nil => exact .nil
  | cons first run =>
      cases hGroup : first.oneof with
      | none =>
          rw [Field.runTokens_of_no_group hGroup]
          exact hTokens
      | some group =>
          have hFirst := hFields first (mem_of_mem_run hRun (by simp))
          rw [Field.runTokens_of_group hGroup]
          exact whole_mark (whole_word (hFirst.group group hGroup).1 (whole_braced hTokens))

/-- The parts of a printable message that lie inside of it can be read back. -/
theorem whole_bodyTokens {message : Message} (hPrintable : message.Printable)
    (hMessages : ∀ inner ∈ message.messages, inner.Printable ∧ ReadsBack inner)
    (hBlocks : ∀ block ∈ message.extendBlocks, block.Printable ∧ ReadsBack block.body) :
    Cursor.Whole message.bodyTokens := by
  have hParts := (message.printable_iff.mp hPrintable).1
  rw [message.bodyTokens_eq]
  refine .append (.flatMap fun inner hMem => ?_) <|
    .append (.flatMap fun decl hMem => whole_enum (hParts.enums decl hMem)) <|
      .append (whole_listTokens hParts.fields) <| .append (.flatMap fun block hMem => ?_) <|
        .append (.flatMap fun range _ => whole_extensionRange range) <|
          .append (.flatMap fun entry _ => whole_reserved entry)
            (whole_statements hParts.options)
  · obtain ⟨hInner, hBack⟩ := hMessages inner hMem
    have hName := (inner.printable_iff.mp hInner).1.name
    exact (whole_commentTokens _).append
      (whole_mark (whole_word hName (whole_braced hBack.whole)))
  · obtain ⟨hBlock, hBack⟩ := hBlocks block hMem
    exact whole_mark (whole_word hBlock.isWord_target (whole_braced hBack.whole))

/-- The members of a printable message are read back, at any depth of nesting. -/
theorem readsBack_of_printable (message : Message) :
    message.Printable → ReadsBack message := by
  induction message using Message.induction_on_parts with
  | hStep message ihMessages ihBlocks =>
      intro hPrintable
      obtain ⟨hParts, hInner, hInnerBlocks⟩ := message.printable_iff.mp hPrintable
      have hMessages : ∀ inner ∈ message.messages, inner.Printable ∧ ReadsBack inner :=
        fun inner hMem => ⟨hInner inner hMem, ihMessages inner hMem (hInner inner hMem)⟩
      have hBlocks : ∀ block ∈ message.extendBlocks, block.Printable ∧ ReadsBack block.body :=
        fun block hMem =>
          ⟨hInnerBlocks block hMem, ihBlocks block hMem (hInnerBlocks block hMem).body⟩
      refine ⟨whole_bodyTokens hPrintable hMessages hBlocks, ?_⟩
      intro levels hNesting
      -- an enum takes a semicolon after it, so no section may start with one
      have hOptionsFirst := noSemicolonFirst_statements message.options
      have hEntriesFirst := (noSemicolonFirst_flatMap
        fun entry (_ : entry ∈ message.reserved) => noSemicolonFirst_reserved entry).append
          hOptionsFirst
      have hExtensionsFirst := (noSemicolonFirst_flatMap
        fun range (_ : range ∈ message.extensions) =>
          (noSemicolonFirst_cons (by decide) : NoSemicolonFirst range.tokens)).append hEntriesFirst
      have hBlocksFirst := (noSemicolonFirst_flatMap
        fun block (_ : block ∈ message.extendBlocks) => noSemicolonFirst_extend block).append
          hExtensionsFirst
      have hFieldsFirst := (noSemicolonFirst_listTokens message.fields).append hBlocksFirst
      have hEnumsFirst := (noSemicolonFirst_flatMap
        fun decl (_ : decl ∈ message.enums) => noSemicolonFirst_enum decl).append hFieldsFirst
      rw [message.nesting_eq, Message.memberNesting] at hNesting
      rw [message.bodyTokens_eq]
      -- each section leaves a message in which it is filled in
      apply membersRead_messages hMessages (by omega) hEnumsFirst
      apply membersRead_enums hParts.enums (by omega) hFieldsFirst
      apply membersRead_fields hParts.fields (by omega) hBlocksFirst
      apply membersRead_extends hBlocks (by omega) hExtensionsFirst
      apply membersRead_extensions hParts.extensions hEntriesFirst
      apply membersRead_entries hParts.reserved hOptionsFirst
      have hOptions : message.options.nesting ≤ levels := by omega
      have hEnd := membersRead_options hParts.options hOptions noSemicolonFirst_nil
        (membersRead_done { message with comments := [] })
      simpa using hEnd

/-- After its keyword a message is read back, apart from the comments before it. -/
theorem reads_messageRest {message : Message} (hMessage : message.Printable)
    (hNesting : message.nesting ≤ levels) :
    messageRest.Reads levels (message.name :: (braced message.bodyTokens ++ rest))
      { message with comments := [] } rest := by
  have hName := (message.printable_iff.mp hMessage).1.name
  have hBack := readsBack_of_printable message hMessage
  have hDeep := message.nesting_eq
  obtain ⟨levels, rfl⟩ : ∃ fewer, levels = fewer + 1 := ⟨levels - 1, by omega⟩
  exact .bind (reads_block .message hName hBack.whole (hBack.members levels hNesting)) (.pure _)

/-- After its keyword an `extend` block is read back. -/
theorem reads_extendRest {extension : ExtendBlock} (hExtension : extension.Printable)
    (hNesting : extension.nesting ≤ levels) :
    extendRest.Reads levels (extension.target :: (braced extension.body.bodyTokens ++ rest))
      extension rest := by
  have hName := hExtension.isWord_target
  have hBack := readsBack_of_printable extension.body hExtension.body
  have hDeep := one_le_nesting_extend extension
  obtain ⟨levels, rfl⟩ : ∃ fewer, levels = fewer + 1 := ⟨levels - 1, by omega⟩
  have hRead : (block .extend fun target => members (.new target)).Reads (levels + 1)
      (extension.target :: (braced extension.body.bodyTokens ++ rest))
      (extension.target, extension.body) rest :=
    reads_block .extend hName hBack.whole (membersRead_extendBody hExtension hBack hNesting)
  rcases extension with ⟨target, body⟩
  exact .bind hRead (.pure _)

end Grammar
end ProtoIdl
