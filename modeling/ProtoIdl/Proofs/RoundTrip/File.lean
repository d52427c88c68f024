import ProtoIdl.Parse
import ProtoIdl.Proofs.RoundTrip.Message
import ProtoIdl.Proofs.RoundTrip.Service

/-!
# Reading back files

Reading undoes writing: the canonical tokens of a printable schema are read to that schema,
and no token is left.  The statements are read back section by section, like the members of
a message; the one that names the language revision comes first, under the comments of the
file.
-/

namespace ProtoIdl
namespace Grammar

open ProtoIdl.Parser

variable {levels : Nat} {rest : List Token}

/-! ## Single statements -/

theorem versionOfLiteral?_quoted (version : LanguageVersion) :
    versionOfLiteral? (Token.quoted version.text) = some version := by
  cases version <;> decide

theorem reads_versionRest (version : LanguageVersion) :
    versionRest.Reads levels ("=" :: Token.quoted version.text :: ";" :: rest) version rest := by
  refine .bind (reads_expect "=" _) (.bind (reads_next _ _ _) ?_)
  rw [versionOfLiteral?_quoted]
  exact .bind (reads_expect ";" _) (.pure version)

theorem reads_packageRest {name : String} (hName : IsWord name) :
    packageRest.Reads levels (name :: ";" :: rest) name rest :=
  .bind (reads_word hName _ _) (.bind (reads_expect ";" _) (.pure name))

/-- A file extension in the last segment of a path is cut off again. -/
theorem cutExtension_append {path extension : List Char} (hSlash : '/' ∉ extension) :
    cutExtension (path ++ '.' :: extension) = cutExtension path := by
  have hAll : ∀ c ∈ extension.reverse ++ ['.'], (c != '/') = true := by
    intro c hMem
    have hNe : c ≠ '/' := by
      rintro rfl
      simp [hSlash] at hMem
    simpa using hNe
  -- the extension has no slash, so it belongs to the last segment
  have hFile : ((path ++ '.' :: extension).reverse.takeWhile (· != '/')).reverse =
      (path.reverse.takeWhile (· != '/')).reverse ++ '.' :: extension := by
    have hReverse : (path ++ '.' :: extension).reverse =
        (extension.reverse ++ ['.']) ++ path.reverse := by simp
    rw [hReverse, List.takeWhile_append_of_pos hAll]
    simp
  -- the search for the first dot stops at the one of the extension, if not before
  have hDot : ∀ file : List Char, (file ++ '.' :: extension).takeWhile (· != '.') =
      file.takeWhile (· != '.') := by
    intro file
    induction file with
    | nil => rfl
    | cons c file ih =>
        rw [List.cons_append, List.takeWhile_cons, List.takeWhile_cons, ih]
  have hLe : (path.reverse.takeWhile (· != '/')).reverse.length ≤ path.length := by
    simpa using (List.takeWhile_prefix (l := path.reverse) (· != '/')).length_le
  simp only [cutExtension, hFile, hDot]
  congr 1
  rw [List.length_append, List.length_append, Nat.add_sub_add_right,
    List.take_append_of_le_length (Nat.sub_le _ _)]

/-- Of a quoted path with a file extension, what is left is what is left of the path itself. -/
theorem cutExtension_quoted {path : String} (hStart : Token.startsQuoted path = false) :
    cutExtension (Token.quoted (path ++ ".proto")).unquote.toList = cutExtension path.toList := by
  have hText : (path ++ ".proto").toList = path.toList ++ '.' :: ['p', 'r', 'o', 't', 'o'] := by
    simp
  have hHead : ∀ c, (path ++ ".proto").toList.head? = some c → Token.isQuote c = false := by
    intro c hFirst
    cases hPath : path.toList with
    | nil =>
        rw [hText, hPath] at hFirst
        cases hFirst
        decide
    | cons first tail =>
        rw [hText, hPath] at hFirst
        cases hFirst
        rwa [Token.startsQuoted, hPath] at hStart
  have hLast : ∀ c, (path ++ ".proto").toList.getLast? = some c → Token.isQuote c = false := by
    intro c hEnd
    rw [hText, List.getLast?_append] at hEnd
    cases hEnd
    decide
  rw [unquote_quoted, Token.unquote, Text.trimWith_eq_self hHead hLast, String.toList_ofList,
    hText, cutExtension_append (by decide)]

theorem reads_importModifier (modifier : Option ImportModifier) (path : String) :
    importModifier.Reads levels ((modifier.map ImportModifier.text).toList ++
      Token.quoted path :: rest) modifier (Token.quoted path :: rest) := by
  have hPublic : Token.quoted path ≠ "public" := quoted_ne (by decide)
  have hWeak : Token.quoted path ≠ "weak" := quoted_ne (by decide)
  cases modifier with
  | none =>
      refine .bind (reads_eat_other (by simpa using hPublic)) ?_
      exact .bind (reads_eat_other (by simpa using hWeak)) (.pure _)
  | some modifier =>
      cases modifier with
      | pub => exact .bind (reads_eat _) (.pure _)
      | weak => exact .bind (reads_eat_other (by simp; decide)) (.bind (reads_eat _) (.pure _))

/-- An import is read to what is left of its path without the extension. -/
theorem reads_importRest {entry : Import} (hStart : Token.startsQuoted entry.path = false) :
    importRest.Reads levels (entry.tokens.tail ++ rest)
      ⟨String.ofList (cutExtension entry.path.toList), entry.modifier⟩ rest := by
  have hTokens : entry.tokens.tail ++ rest = (entry.modifier.map ImportModifier.text).toList ++
      Token.quoted (entry.path ++ ".proto") :: ";" :: rest := by
    simp [Import.tokens]
  rw [hTokens, ← cutExtension_quoted hStart]
  refine .bind (reads_importModifier _ _) ?_
  refine .bind (reads_word (isWord_quoted _) _ _) ?_
  refine .bind (reads_expect ";" _) ?_
  exact .pure _

/-- The path of a printable import is read back as it is. -/
theorem reads_importRest_printable {entry : Import} (hEntry : entry.Printable) :
    importRest.Reads levels (entry.tokens.tail ++ rest) entry rest := by
  have hPath : String.ofList (cutExtension entry.path.toList) = entry.path := by
    rw [hEntry.segment, String.ofList_toList]
  simpa only [hPath] using reads_importRest hEntry.start

/-! ## Statements of each kind -/

/-- With `schema` read so far, and a statement read already, the tokens left are read to
`final`. -/
def FileReads (levels : Nat) (final schema : Schema) (ahead : List Token) : Prop :=
  (loop statementHead statement ⟨schema, true⟩).Reads levels ahead ⟨final, true⟩ []

section Statements

variable {schema grown final : Schema} {ahead : List Token}

/-- A statement, and then the others. -/
theorem fileReads_statement {comments : List String} {token : Token}
    (hComments : PrintableComments comments) (hComment : token.isComment = false)
    (hToken : token ≠ ";")
    (hDeclaration : (declaration schema true comments (Keyword.ofToken? token)).Reads levels
      ahead grown rest)
    (hRest : FileReads levels final grown rest) :
    FileReads levels final schema (commentTokens comments ++ token :: ahead) := by
  have hStatement : (statement ⟨schema, true⟩ (comments, token)).Reads levels ahead
      ⟨grown, true⟩ rest := by
    rw [statement, if_neg hToken]
    exact .bind hDeclaration (.pure _)
  exact reads_loop_item (reads_statementHead hComments hComment) hStatement hRest

theorem fileReads_package (package : Option String)
    (hName : ∀ name, package = some name → IsWord name)
    (hRest : FileReads levels final { schema with package := package } rest)
    (hNone : schema.package = none) :
    FileReads levels final schema (packageTokens package ++ rest) := by
  cases package with
  | none => rwa [← hNone] at hRest
  | some name =>
      exact fileReads_statement printableComments_nil (by decide) (by decide)
        (.bind (reads_packageRest (hName name rfl)) (.pure _)) hRest

theorem fileReads_import {entry : Import} (hEntry : entry.Printable)
    (hRest : FileReads levels final { schema with imports := schema.imports ++ [entry] } rest) :
    FileReads levels final schema (entry.tokens ++ rest) :=
  fileReads_statement printableComments_nil (by decide) (by decide)
    (.bind (reads_importRest_printable hEntry) (.pure _)) hRest

theorem fileReads_enum {decl : EnumDecl} (hDecl : decl.Printable)
    (hNesting : decl.nesting ≤ levels) (hLater : NoSemicolonFirst rest)
    (hRest : FileReads levels final { schema with enums := schema.enums ++ [decl] } rest) :
    FileReads levels final schema (decl.tokens ++ rest) := by
  rw [EnumDecl.tokens, List.append_assoc, List.cons_append, List.cons_append]
  exact fileReads_statement hDecl.comments (by decide) (by decide)
    (.bind (reads_enumRest hDecl hNesting hLater) (.pure _)) hRest

theorem fileReads_message {message : Message} (hMessage : message.Printable)
    (hNesting : message.nesting ≤ levels)
    (hRest : FileReads levels final { schema with messages := schema.messages ++ [message] }
      rest) :
    FileReads levels final schema (message.tokens ++ rest) := by
  have hComments := (message.printable_iff.mp hMessage).1.comments
  have hSame : { { message with comments := [] } with comments := message.comments } =
      message := by
    cases message
    rfl
  have hEnd : (pure { schema with messages := schema.messages ++
      [{ { message with comments := [] } with comments := message.comments }] } :
        Parser Schema).Reads levels rest
          { schema with messages := schema.messages ++ [message] } rest := by
    rw [hSame]
    exact .pure _
  rw [Message.tokens, List.append_assoc, List.cons_append, List.cons_append]
  exact fileReads_statement hComments (by decide) (by decide)
    (.bind (reads_messageRest hMessage hNesting) hEnd) hRest

theorem fileReads_extend {block : ExtendBlock} (hBlock : block.Printable)
    (hNesting : block.nesting ≤ levels)
    (hRest : FileReads levels final
      { schema with extendBlocks := schema.extendBlocks ++ [block] } rest) :
    FileReads levels final schema (block.tokens ++ rest) :=
  fileReads_statement printableComments_nil (by decide) (by decide)
    (.bind (reads_extendRest hBlock hNesting) (.pure _)) hRest

theorem fileReads_service {service : Service} (hService : service.Printable)
    (hNesting : service.nesting ≤ levels) (hLater : NoSemicolonFirst rest)
    (hRest : FileReads levels final { schema with services := schema.services ++ [service] }
      rest) :
    FileReads levels final schema (service.tokens ++ rest) := by
  rw [Service.tokens, List.append_assoc, List.cons_append, List.cons_append]
  exact fileReads_statement hService.comments (by decide) (by decide)
    (.bind (reads_serviceRest hService hNesting hLater) (.pure _)) hRest

theorem fileReads_option {options : OptionMap}
    (hOption : (bindOptionRest schema.options).Reads levels ahead options rest)
    (hRest : FileReads levels final { schema with options := options } rest) :
    FileReads levels final schema (Keyword.option.text :: ahead) :=
  fileReads_statement printableComments_nil (by decide) (by decide) (.bind hOption (.pure _))
    hRest

/-- The statement of the language revision comes first and takes the comments of the
file. -/
theorem reads_file (default : LanguageVersion) (version : LanguageVersion)
    {comments : List String} (hComments : PrintableComments comments)
    (hRest : FileReads levels final { Schema.new version with comments := comments } rest) :
    (file default).Reads levels (commentTokens comments ++ Keyword.syntaxVersion.text :: "=" ::
      Token.quoted version.text :: ";" :: rest) final [] := by
  have hStatement : (statement ⟨.new default, false⟩
      (comments, Keyword.syntaxVersion.text)).Reads levels
        ("=" :: Token.quoted version.text :: ";" :: rest)
        ⟨{ Schema.new version with comments := comments }, true⟩ rest := by
    have hToken : Keyword.syntaxVersion.text ≠ ";" := by decide
    rw [statement, if_neg hToken]
    exact .bind (.bind (reads_versionRest version) (.pure _)) (.pure _)
  exact .bind (reads_loop_item (reads_statementHead hComments (by decide)) hStatement hRest)
    (.pure _)

end Statements

/-! ## Whole files -/

section Sections

variable {final : Schema} {version : LanguageVersion} {package : Option String}
  {imports : List Import} {messages : List Message} {enums : List EnumDecl}
  {services : List Service} {blocks : List ExtendBlock} {options : OptionMap}
  {comments : List String}

theorem fileReads_imports (hImports : ∀ entry ∈ imports, entry.Printable)
    (hLater : NoSemicolonFirst rest)
    (hRest : FileReads levels final ⟨version, package, imports, [], [], [], [], ∅, comments⟩
      rest) :
    FileReads levels final ⟨version, package, [], [], [], [], [], ∅, comments⟩
      (imports.flatMap Import.tokens ++ rest) := by
  refine reads_flatMap (FileReads levels final)
    (fun done => ⟨version, package, done, [], [], [], [], ∅, comments⟩) ?_
    (fun entry _ => noSemicolonFirst_cons (by decide)) hLater hRest
  intro done entry todo hSplit after _ hAfter
  exact fileReads_import (hImports entry (List.mem_iff_append.mpr ⟨done, todo, hSplit⟩)) hAfter

theorem fileReads_options (hDeclared : options.Declared) (hNesting : options.nesting ≤ levels)
    (hLater : NoSemicolonFirst rest)
    (hRest : FileReads levels final
      ⟨version, package, imports, [], [], [], [], options, comments⟩ rest) :
    FileReads levels final ⟨version, package, imports, [], [], [], [], ∅, comments⟩
      (options.statements ++ rest) := by
  refine reads_statements (FileReads levels final)
    (fun bound => ⟨version, package, imports, [], [], [], [], bound, comments⟩)
    hDeclared hNesting ?_ hLater hRest
  intro bound grown ahead after hOption hAfter
  exact fileReads_option hOption hAfter

theorem fileReads_enums (hEnums : ∀ decl ∈ enums, decl.Printable)
    (hNesting : deepest EnumDecl.nesting enums ≤ levels) (hLater : NoSemicolonFirst rest)
    (hRest : FileReads levels final
      ⟨version, package, imports, [], enums, [], [], options, comments⟩ rest) :
    FileReads levels final ⟨version, package, imports, [], [], [], [], options, comments⟩
      (enums.flatMap EnumDecl.tokens ++ rest) := by
  refine reads_flatMap (FileReads levels final)
    (fun done => ⟨version, package, imports, [], done, [], [], options, comments⟩) ?_
    (fun decl _ => noSemicolonFirst_enum decl) hLater hRest
  intro done decl todo hSplit after hAfterFirst hAfter
  have hMem : decl ∈ enums := List.mem_iff_append.mpr ⟨done, todo, hSplit⟩
  exact fileReads_enum (hEnums decl hMem)
    (le_trans (le_deepest EnumDecl.nesting hMem) hNesting) hAfterFirst hAfter

theorem fileReads_messages (hMessages : ∀ message ∈ messages, message.Printable)
    (hNesting : deepest Message.nesting messages ≤ levels) (hLater : NoSemicolonFirst rest)
    (hRest : FileReads levels final
      ⟨version, package, imports, messages, enums, [], [], options, comments⟩ rest) :
    FileReads levels final ⟨version, package, imports, [], enums, [], [], options, comments⟩
      (messages.flatMap Message.tokens ++ rest) := by
  refine reads_flatMap (FileReads levels final)
    (fun done => ⟨version, package, imports, done, enums, [], [], options, comments⟩) ?_
    (fun message _ => noSemicolonFirst_message message) hLater hRest
  intro done message todo hSplit after _ hAfter
  have hMem : message ∈ messages := List.mem_iff_append.mpr ⟨done, todo, hSplit⟩
  exact fileReads_message (hMessages message hMem)
    (le_trans (le_deepest Message.nesting hMem) hNesting) hAfter

theorem fileReads_extends (hBlocks : ∀ block ∈ blocks, block.Printable)
    (hNesting : deepest ExtendBlock.nesting blocks ≤ levels) (hLater : NoSemicolonFirst rest)
    (hRest : FileReads levels final
      ⟨version, package, imports, messages, enums, [], blocks, options, comments⟩ rest) :
    FileReads levels final
      ⟨version, package, imports, messages, enums, [], [], options, comments⟩
      (blocks.flatMap ExtendBlock.tokens ++ rest) := by
  refine reads_flatMap (FileReads levels final)
    (fun done => ⟨version, package, imports, messages, enums, [], done, options, comments⟩) ?_
    (fun block _ => noSemicolonFirst_extend block) hLater hRest
  intro done block todo hSplit after _ hAfter
  have hMem : block ∈ blocks := List.mem_iff_append.mpr ⟨done, todo, hSplit⟩
  exact fileReads_extend (hBlocks block hMem)
    (le_trans (le_deepest ExtendBlock.nesting hMem) hNesting) hAfter

theorem fileReads_services (hServices : ∀ service ∈ services, service.Printable)
    (hNesting : deepest Service.nesting services ≤ levels)
    (hRest : FileReads levels final
      ⟨version, package, imports, messages, enums, services, blocks, options, comments⟩ []) :
    FileReads levels final
      ⟨version, package, imports, messages, enums, [], blocks, options, comments⟩
      (services.flatMap Service.tokens ++ []) := by
  refine reads_flatMap (FileReads levels final)
    (fun done => ⟨version, package, imports, messages, enums, done, blocks, options, comments⟩)
    ?_ (fun service _ => noSemicolonFirst_service service) noSemicolonFirst_nil hRest
  intro done service todo hSplit after hAfterFirst hAfter
  have hMem : service ∈ services := List.mem_iff_append.mpr ⟨done, todo, hSplit⟩
  exact fileReads_service (hServices service hMem)
    (le_trans (le_deepest Service.nesting hMem) hNesting) hAfterFirst hAfter

end Sections

/-- The canonical tokens of a printable schema are read back, section by section. -/
theorem reads_schema {schema : Schema} (hPrintable : schema.Printable) {limit : Nat}
    (hNesting : schema.nesting ≤ limit) (default : LanguageVersion) :
    (file default).Reads limit schema.tokens schema [] := by
  have hServicesFirst : NoSemicolonFirst (schema.services.flatMap Service.tokens ++ []) :=
    (noSemicolonFirst_flatMap fun service _ => noSemicolonFirst_service service).append
      noSemicolonFirst_nil
  have hBlocksFirst := (noSemicolonFirst_flatMap
    fun block (_ : block ∈ schema.extendBlocks) => noSemicolonFirst_extend block).append
      hServicesFirst
  have hMessagesFirst := (noSemicolonFirst_flatMap
    fun message (_ : message ∈ schema.messages) => noSemicolonFirst_message message).append
      hBlocksFirst
  have hEnumsFirst := (noSemicolonFirst_flatMap
    fun decl (_ : decl ∈ schema.enums) => noSemicolonFirst_enum decl).append hMessagesFirst
  have hOptionsFirst := (noSemicolonFirst_statements schema.options).append hEnumsFirst
  have hStatements : FileReads limit schema
      { Schema.new schema.version with comments := schema.comments }
      (packageTokens schema.package ++ (schema.imports.flatMap Import.tokens ++
        (schema.options.statements ++ (schema.enums.flatMap EnumDecl.tokens ++
          (schema.messages.flatMap Message.tokens ++
            (schema.extendBlocks.flatMap ExtendBlock.tokens ++
              (schema.services.flatMap Service.tokens ++ []))))))) := by
    rw [Schema.nesting] at hNesting
    refine fileReads_package schema.package hPrintable.package ?_ rfl
    apply fileReads_imports hPrintable.imports hOptionsFirst
    apply fileReads_options hPrintable.options (by omega) hEnumsFirst
    apply fileReads_enums hPrintable.enums (by omega) hMessagesFirst
    apply fileReads_messages hPrintable.messages (by omega) hBlocksFirst
    apply fileReads_extends hPrintable.extendBlocks (by omega) hServicesFirst
    apply fileReads_services hPrintable.services (by omega)
    exact reads_loop_done reads_statementHead_done
  rw [List.append_nil] at hStatements
  exact reads_file default schema.version hPrintable.comments hStatements

/-- Reading undoes writing: the canonical tokens of a printable schema are read to that
schema and none of them is left, whatever revision is the default. -/
theorem file_reads_tokens {schema : Schema} (hPrintable : schema.Printable) {limit : Nat}
    (hNesting : schema.nesting ≤ limit) (default : LanguageVersion) :
    ∃ after, (file default).run (.ofTokens schema.tokens limit) = .ok schema after ∧
      after.rest = [] := by
  have hReads := reads_schema hPrintable hNesting default
  obtain ⟨after, hRun, hAfter, -⟩ := hReads (.ofTokens schema.tokens limit) rfl
    (by simp [Cursor.ofTokens])
  exact ⟨after, hRun, hAfter⟩

/-- What a file is read to, from the first token to the last, is the schema of the file. -/
theorem readFile_of_reads {settings : Settings} {tokens : List Token} {schema : Schema}
    (hReads : (file settings.version).Reads settings.maxDepth tokens schema []) :
    readFile tokens settings = .ok schema := by
  obtain ⟨after, hRun, -, -⟩ := hReads (.ofTokens tokens settings.maxDepth) rfl
    (by simp [Cursor.ofTokens])
  unfold readFile
  rw [hRun]

/-- A file that names its revision first is read as its other statements are. -/
theorem readFile_of_fileReads {version : LanguageVersion} {final : Schema} {settings : Settings}
    {rest : List Token} (hRest : FileReads settings.maxDepth final (.new version) rest) :
    readFile (Keyword.syntaxVersion.text :: "=" :: Token.quoted version.text :: ";" :: rest)
      settings = .ok final :=
  readFile_of_reads (reads_file settings.version version printableComments_nil hRest)

/-- A small library: a message with a group, a map and a nested message, an enum, a block of
extensions and a streaming service. -/
def librarySchema : Schema where
  version := .proto2
  package := some "library"
  imports := [⟨"base/types", some .pub⟩]
  messages := [{ Message.new "Book" with
    messages := [.new "Page"]
    fields := [
      ⟨"title", .scalar "string", 1, true, false, none, ∅, ["shown first"]⟩,
      ⟨"isbn", .named "Code", 2, false, false, some "id", ∅, []⟩,
      ⟨"shelf", .scalar "int32", 3, false, false, some "id", ∅, []⟩,
      ⟨"notes", .map "string" "string", 4, false, false, none,
        ⟨[("deprecated", .bool true)]⟩, []⟩]
    extensions := [⟨100, 199⟩] }]
  enums := [⟨"Kind", [⟨"NOVEL", -1, ∅, ["fiction"]⟩, ⟨"ATLAS", 2, ∅, []⟩], [.name "OLD"], ∅, []⟩]
  services := [⟨"Desk", [⟨"Lend", [⟨some "book", .named "Book", false⟩],
    ⟨none, .named "Book", false⟩, true, false, ∅, []⟩], ∅, []⟩]
  extendBlocks := [⟨"Book", { Message.new "Book" with
    fields := [⟨"stars", .scalar "int32", 100, false, false, none, ∅, []⟩] }⟩]
  options := ⟨[("style", .map ⟨[("color", .text "red"), ("mark", .list [∅, ∅])]⟩)]⟩
  comments := ["a library"]

theorem file_reads_tokens_library :
    librarySchema.Printable ∧ librarySchema.nesting ≤ 2 ∧
      ∃ after, (file .proto3).run (.ofTokens librarySchema.tokens 2) = .ok librarySchema after ∧
        after.rest = [] := by
  have hPrintable : librarySchema.Printable := by decide
  have hNesting : librarySchema.nesting ≤ 2 := by decide
  exact ⟨hPrintable, hNesting, file_reads_tokens hPrintable hNesting .proto3⟩

end Grammar
end ProtoIdl
