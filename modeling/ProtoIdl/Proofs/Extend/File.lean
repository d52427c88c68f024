import ProtoIdl.Proofs.Extend.Members

/-!
# `extend` blocks of a file

The grammar reads the body of an `extend` block as that of a message.  What is declared there
besides fields stays in the schema: the linker neither looks for the blocks in such a body nor
checks the numbers of their fields.  Which files have no such declaration is told by their
tokens (`Layout.admits`), and in the schemas of those every block is linked.
-/

namespace ProtoIdl

/-! ## Files -/

theorem Schema.blocksHoldFields_congr {first second : Schema}
    (hMessages : first.messages = second.messages)
    (hBlocks : first.extendBlocks = second.extendBlocks) :
    first.BlocksHoldFields ↔ second.BlocksHoldFields := by
  rw [blocksHoldFields_iff, blocksHoldFields_iff, hMessages, hBlocks]

theorem Schema.blocksHoldFields_new (version : LanguageVersion) :
    (Schema.new version).BlocksHoldFields :=
  blocksHoldFields_iff.mpr ⟨nofun, nofun⟩

namespace Grammar

open ProtoIdl.Parser
open Layout (Decides)

variable {cursor : Cursor}

/-- A block at the top of a file must fit. -/
theorem blocksHoldFields_addTopBlock {schema : Schema} {kind : BlockKind} {inner : Message}
    (comments : List String) (name : String) :
    (addTopBlock schema kind comments name inner).BlocksHoldFields ↔
      schema.BlocksHoldFields ∧ inner.FitsIn kind := by
  rw [Schema.blocksHoldFields_iff, Schema.blocksHoldFields_iff]
  cases kind with
  | message => exact partsHoldFields_concat_message comments
  | extend => exact partsHoldFields_concat_block name

/-- A declaration without a block adds neither messages nor blocks. -/
theorem yields_declaration_parts {first : Token} (hKind : BlockKind.ofToken? first = none)
    (schema : Schema) (started : Bool) (comments : List String) :
    Yields (declaration schema started comments (Keyword.ofToken? first))
      (fun grown => grown.messages = schema.messages ∧ grown.extendBlocks = schema.extendBlocks)
      cursor := by
  unfold BlockKind.ofToken? at hKind
  unfold declaration
  split
  · exact .after fun name _ _ => .pure ⟨rfl, rfl⟩
  · split
    · exact .fail _
    · exact .after fun version _ _ => .pure ⟨rfl, rfl⟩
  · next hFirst => rw [hFirst] at hKind; cases hKind
  · exact .after fun decl _ _ => .pure ⟨rfl, rfl⟩
  · exact .after fun options _ _ => .pure ⟨rfl, rfl⟩
  · exact .after fun entry _ _ => .pure ⟨rfl, rfl⟩
  · next hFirst => rw [hFirst] at hKind; cases hKind
  · exact .after fun service _ _ => .pure ⟨rfl, rfl⟩
  · exact .rejectLast _

/-- The tokens of a declaration decide whether all blocks still hold fields alone. -/
theorem spans_declaration_decides (schema : Schema) (started : Bool) (comments : List String)
    (first : Token) :
    Spans (declaration schema started comments (Keyword.ofToken? first))
      (fun grown used => Decides [] schema.BlocksHoldFields grown.BlocksHoldFields (first :: used))
      cursor := by
  cases hKind : BlockKind.ofToken? first with
  | none =>
      refine .mono ((spans_declaration hKind schema started comments).and_yields
        (yields_declaration_parts hKind schema started comments)) ?_
      rintro grown used ⟨hMember, hMessages, hBlocks⟩
      refine .member hMember hKind ?_
      rw [Schema.blocksHoldFields_congr hMessages hBlocks]
      exact (and_iff_left (Layout.strays_start_nil first)).symm
  | some kind =>
      rw [declaration_of_block hKind]
      have hBlock := spans_block kind fun name (entered : Cursor) (_ : _ < cursor.left) =>
        spans_members_decides kind [] (.new name)
      refine .bind hBlock fun named used _ _ hUsed => .pure ?_
      obtain ⟨hName, body, rfl, hBody⟩ := hUsed
      rw [List.append_nil]
      refine .block hKind hName hBody (Message.fitsIn_new kind named.1) ?_
      rw [blocksHoldFields_addTopBlock, and_iff_right (Layout.strays_start_nil first)]

theorem spans_statement_decides (state : FileState) (head : List String × Token) :
    Spans (statement state head)
      (fun grown used => Decides [] state.schema.BlocksHoldFields grown.schema.BlocksHoldFields
        (head.2 :: used)) cursor := by
  unfold statement
  split
  · next hEmpty =>
      have hKind : BlockKind.ofToken? head.2 = none := by rw [hEmpty]; decide
      exact .pure (.member (.inl ⟨hEmpty, rfl⟩) hKind
        (and_iff_left (Layout.strays_start_nil _)).symm)
  · -- the comments before the first statement change the schema, but none of its blocks
    have hSame : Schema.BlocksHoldFields (if state.started = true then state.schema
        else { state.schema with comments := head.1 }) ↔ state.schema.BlocksHoldFields := by
      split
      · exact .rfl
      · exact Schema.blocksHoldFields_congr rfl rfl
    refine .bind (spans_declaration_decides _ _ _ _) fun grown used _ _ hUsed => .pure ?_
    rw [List.append_nil, ← hSame]
    exact hUsed

end Grammar

variable {tokens : List Token} {settings : Settings} {schema : Schema}

/-- The tokens of a file tell whether all its blocks hold fields alone. -/
theorem blocksHoldFields_of_readFile (hRead : readFile tokens settings = .ok schema) :
    schema.BlocksHoldFields ↔ (Layout.start []).admits tokens = true := by
  obtain ⟨state, rfl, hDecides⟩ := exists_state_of_readFile
    (Grammar.spans_statementLoop_decides
      (fun state head _ _ => Grammar.spans_statement_decides state head) _) hRead
  rw [hDecides.later_iff]
  exact and_iff_right (Schema.blocksHoldFields_new settings.version)

/-! ## A file with one block -/

/-- A message that opens the numbers from 100 to 199. -/
def openBook : Message :=
  { Message.new "Book" with extensions := [⟨100, 199⟩] }

/-- A file with such a message and a block. -/
def extendedBook (block : ExtendBlock) : Schema :=
  { Schema.new .proto3 with messages := [openBook], extendBlocks := [block] }

/-- The tokens of such a file. -/
def extendedBookTokens (block : List Token) : List Token :=
  ["syntax", "=", "\"proto3\"", ";", "message", "Book", Token.openBrace, "extensions", "100", "to",
    "199", ";", Token.closeBrace] ++ block

/-- Such a file is parsed by adding the fields of its block to the message. -/
theorem parseTokens_extendedBook {block : ExtendBlock} {tokens : List Token} {linked : Schema}
    (hBlock : block.Printable) (hNesting : block.nesting ≤ 64) (hTokens : block.tokens = tokens)
    (hLiterals : ∀ token ∈ extendedBookTokens tokens, token.opensQuote = false)
    (hLocate : (extendedBook block).locate? [] block.target = some [0])
    (hFields : (extendedBook block).addFields [0] block.body.fields = (linked, none)) :
    parseTokens (extendedBookTokens tokens) {} = .ok linked := by
  have hStatements : Grammar.FileReads 64 (extendedBook block) (.new .proto3)
      (openBook.tokens ++ (block.tokens ++ [])) := by
    apply Grammar.fileReads_message (by decide) (by decide)
    apply Grammar.fileReads_extend hBlock hNesting
    exact Parser.reads_loop_done reads_statementHead_done
  -- these are the canonical tokens of the file, which are read back
  have hPrefix : extendedBookTokens tokens = Keyword.syntaxVersion.text :: "=" ::
      Token.quoted LanguageVersion.proto3.text :: ";" :: (openBook.tokens ++ tokens) := by
    have hBook : extendedBookTokens [] = Keyword.syntaxVersion.text :: "=" ::
        Token.quoted LanguageVersion.proto3.text :: ";" :: openBook.tokens := by decide
    exact congrArg (· ++ tokens) hBook
  rw [List.append_nil, hTokens] at hStatements
  have hRead : readFile (extendedBookTokens tokens) {} = .ok (extendedBook block) := by
    rw [hPrefix]
    exact Grammar.readFile_of_fileReads hStatements
  rw [parseTokens, Token.coalesce_eq_self hLiterals, hRead]
  have hBlocks : (extendedBook block).scopedBlocks = [([], block)] := rfl
  have hLink : (extendedBook block).link = (linked, none) := by
    rw [Schema.link, hBlocks, Schema.linkBlocks, Schema.linkBlock, hLocate]
    dsimp only
    rw [hFields]
    rfl
  show (extendedBook block).linked = .ok linked
  rw [Schema.linked, hLink]

/-! ## What escapes the linker -/

/-- The blocks of a file that parses hold fields alone exactly if no member of an `extend` block
starts with the keyword of another member.  With linking, each block that the linker finds has
its fields, of open numbers, in the message that it names; and where all blocks hold fields
alone, the linker finds every block that is declared. -/
theorem parseTokens_extendBlocks (hParse : parseTokens tokens settings = .ok schema) :
    (schema.BlocksHoldFields ↔ (Layout.start []).admits (Token.coalesce tokens) = true) ∧
      (settings.link = true →
        ∀ scope block, (scope, block) ∈ schema.scopedBlocks → schema.Extends scope block) ∧
      (schema.BlocksHoldFields →
        ∀ block, schema.Declares block → ∃ scope, (scope, block) ∈ schema.scopedBlocks) := by
  obtain ⟨unlinked, hRead, hLink⟩ := exists_readFile_of_parseTokens hParse
  have hTokens := blocksHoldFields_of_readFile hRead
  refine ⟨?_, ?_, fun hHolds block => Schema.exists_mem_scopedBlocks hHolds⟩
  · -- linking changes no block, so the tokens tell of the linked schema what they tell of this one
    rcases hLink with ⟨-, hLink⟩ | ⟨-, rfl⟩
    · rw [← hTokens]
      exact forall_congr' fun block => imp_congr_left (Schema.declares_link hLink)
    · exact hTokens
  · rcases hLink with ⟨-, hLink⟩ | ⟨hUnlinked, -⟩
    · exact fun _ scope block hMem => Schema.extends_of_link hLink hMem
    · intro hLinked
      rw [hUnlinked] at hLinked
      cases hLinked

/-- A block with an open number is found, and its field is in the message. -/
theorem parseTokens_extendBlocks_book :
    ∃ tokens schema, parseTokens (extendedBookTokens tokens) {} = .ok schema ∧
      tokens = ["extend", "Book", Token.openBrace, "optional", "int32", "stars", "=", "100", ";",
        Token.closeBrace] ∧
      schema.BlocksHoldFields ∧
        ∀ block, schema.Declares block → ∃ scope, (scope, block) ∈ schema.scopedBlocks ∧
          schema.Extends scope block := by
  let stars : Field := ⟨"stars", .scalar "int32", 100, false, false, none, ∅, []⟩
  let block : ExtendBlock := ⟨"Book", { Message.new "Book" with fields := [stars] }⟩
  let linked : Schema :=
    { extendedBook block with messages := [{ openBook with fields := [stars] }] }
  have hLiterals : ∀ token ∈ extendedBookTokens block.tokens, token.opensQuote = false := by decide
  have hParse : parseTokens (extendedBookTokens block.tokens) {} = .ok linked :=
    parseTokens_extendedBook (by decide) (by decide) rfl hLiterals (by decide) rfl
  obtain ⟨hTokens, hLinked, hFound⟩ := parseTokens_extendBlocks hParse
  rw [Token.coalesce_eq_self hLiterals] at hTokens
  have hHolds := hTokens.mpr (by decide)
  refine ⟨block.tokens, linked, hParse, by decide, hHolds, fun block hDeclares => ?_⟩
  obtain ⟨scope, hScope⟩ := hFound hHolds block hDeclares
  exact ⟨scope, hScope, hLinked rfl scope block hScope⟩

/-- A block in the body of a block is read.  The linker does not find it, and the number of its
field is not open in the message that it names. -/
theorem nested_block_escapes :
    ∃ schema, parseTokens (extendedBookTokens ["extend", "Book", Token.openBrace, "extend", "Book",
        Token.openBrace, "optional", "int32", "stars", "=", "7", ";", Token.closeBrace,
        Token.closeBrace]) {} = .ok schema ∧
      ¬schema.BlocksHoldFields ∧
        ∃ block, schema.Declares block ∧ (∀ scope, (scope, block) ∉ schema.scopedBlocks) ∧
          ¬schema.Extends [] block := by
  let stars : Field := ⟨"stars", .scalar "int32", 7, false, false, none, ∅, []⟩
  let inner : ExtendBlock := ⟨"Book", { Message.new "Book" with fields := [stars] }⟩
  let outer : ExtendBlock := ⟨"Book", { Message.new "Book" with extendBlocks := [inner] }⟩
  have hPrintable : outer.Printable := by decide
  have hLocate : (extendedBook outer).locate? [] "Book" = some [0] := by decide
  have hOuter : outer ∈ (extendedBook outer).extendBlocks := List.mem_singleton_self outer
  have hInner : (extendedBook outer).Declares inner :=
    .inr (.inr ⟨outer, hOuter, .own (List.mem_singleton_self inner)⟩)
  refine ⟨extendedBook outer, ?_, fun hHolds => ?_, inner, hInner, ?_, fun hExtends => ?_⟩
  · exact parseTokens_extendedBook hPrintable (by decide) (by decide) (by decide) hLocate rfl
  · exact absurd (hHolds outer (.inl hOuter)).extendBlocks (List.cons_ne_nil inner [])
  · intro scope hMem
    have hBlocks : (extendedBook outer).scopedBlocks = [([], outer)] := rfl
    rw [hBlocks, List.mem_singleton] at hMem
    have hFields : [stars] = [] := congrArg (fun entry => entry.2.body.fields) hMem
    exact absurd hFields (List.cons_ne_nil stars [])
  · obtain ⟨target, hTarget, hFields⟩ := hExtends [0] hLocate
    cases hTarget
    exact absurd (hFields stars (List.mem_singleton_self stars)).1 (by decide)

end ProtoIdl
