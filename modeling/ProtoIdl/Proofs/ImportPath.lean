import ProtoIdl.Proofs.Parser.FileLoop
import ProtoIdl.Proofs.RoundTrip.File

/-!
# Paths of imports

The path of an import is recorded without what follows from the first dot of its last segment
on.  The statement that imports a file therefore records the path in front of the file extension
only if the last segment of that has no dot, and two files whose paths agree up to the first dot
are recorded as one.
-/

namespace ProtoIdl

/-! ## The parts of a path -/

/-- A path is a folder, the last segment up to its first dot, and what follows from there on. -/
structure SplitsPath (path folder stem dotted : List Char) : Prop where
  path_eq : path = folder ++ (stem ++ dotted)
  folder_end : folder = [] ∨ folder.getLast? = some '/'
  slash_not_mem : '/' ∉ stem ∧ '/' ∉ dotted
  dot_not_mem : '.' ∉ stem
  dotted_head : dotted = [] ∨ dotted.head? = some '.'

section Parts

variable {path folder stem dotted : List Char}

theorem exists_splitsPath (path : List Char) :
    ∃ folder stem dotted, SplitsPath path folder stem dotted := by
  let file := (path.reverse.takeWhile (· != '/')).reverse
  let folder := (path.reverse.dropWhile (· != '/')).reverse
  have hSlash : '/' ∉ file := by
    intro hMem
    simpa using List.mem_takeWhile_imp (List.mem_reverse.mp hMem)
  have hFile : file.takeWhile (· != '.') ++ file.dropWhile (· != '.') = file :=
    List.takeWhile_append_dropWhile
  refine ⟨folder, file.takeWhile (· != '.'), file.dropWhile (· != '.'), ?_, ?_, ?_, ?_, ?_⟩
  · rw [hFile, ← List.reverse_append, List.takeWhile_append_dropWhile, List.reverse_reverse]
  · cases hRest : path.reverse.dropWhile (· != '/') with
    | nil => exact .inl (by simp only [folder, hRest, List.reverse_nil])
    | cons c rest =>
        have hStop := Text.head?_dropWhile (congrArg List.head? hRest)
        exact .inr (by simpa [folder, hRest] using hStop)
  · rw [← not_or, ← List.mem_append, hFile]
    exact hSlash
  · intro hMem
    simpa using List.mem_takeWhile_imp hMem
  · cases hRest : file.dropWhile (· != '.') with
    | nil => exact .inl rfl
    | cons c rest =>
        have hStop := Text.head?_dropWhile (congrArg List.head? hRest)
        exact .inr (by simpa using hStop)

/-- A text without a separator is taken up to the separator that follows it, or to the end. -/
theorem takeWhile_append_left {separator : Char} {text rest : List Char}
    (hText : separator ∉ text) (hRest : rest = [] ∨ rest.head? = some separator) :
    (text ++ rest).takeWhile (· != separator) = text := by
  have hKept : ∀ c ∈ text, (c != separator) = true := by
    intro c hMem
    have hNe : c ≠ separator := by
      rintro rfl
      exact hText hMem
    simpa using hNe
  have hNone : rest.takeWhile (· != separator) = [] := by
    rcases hRest with rfl | hHead
    · rfl
    · obtain ⟨later, rfl⟩ := List.head?_eq_some_iff.mp hHead
      simp
  rw [List.takeWhile_append_of_pos hKept, hNone, List.append_nil]

/-- The last segment of a path is what follows its last slash. -/
theorem SplitsPath.takeWhile_reverse (hParts : SplitsPath path folder stem dotted) :
    (path.reverse.takeWhile (· != '/')).reverse = stem ++ dotted := by
  obtain ⟨rfl, hFolder, ⟨hStem, hDotted⟩, -, -⟩ := hParts
  have hFile : '/' ∉ (stem ++ dotted).reverse := by simp [hStem, hDotted]
  have hSlash : folder.reverse = [] ∨ folder.reverse.head? = some '/' := by
    rwa [List.reverse_eq_nil_iff, List.head?_reverse]
  rw [List.reverse_append, takeWhile_append_left hFile hSlash, List.reverse_reverse]

/-- What is left of a path is its folder and the last segment up to its first dot. -/
theorem SplitsPath.cutExtension_eq (hParts : SplitsPath path folder stem dotted) :
    Grammar.cutExtension path = folder ++ stem := by
  have hFile := hParts.takeWhile_reverse
  obtain ⟨rfl, -, -, hDot, hDotted⟩ := hParts
  simp only [Grammar.cutExtension, hFile]
  rw [takeWhile_append_left hDot hDotted, List.length_append, Nat.add_sub_cancel, List.take_left]

/-- Paths that agree in what is left of them agree up to the first dot of the last segment. -/
theorem SplitsPath.append_inj {other folder' stem' dotted' : List Char}
    (hParts : SplitsPath path folder stem dotted)
    (hOther : SplitsPath other folder' stem' dotted') (hSame : folder ++ stem = folder' ++ stem') :
    folder = folder' ∧ stem = stem' := by
  -- what is left of the two is a path of its own, which has only one last segment
  have hLeft : SplitsPath (folder ++ stem) folder stem [] :=
    ⟨by simp, hParts.folder_end, by simp [hParts.slash_not_mem], hParts.dot_not_mem, .inl rfl⟩
  have hRight : SplitsPath (folder ++ stem) folder' stem' [] :=
    ⟨by simp [hSame], hOther.folder_end, by simp [hOther.slash_not_mem], hOther.dot_not_mem,
      .inl rfl⟩
  have hStem : stem = stem' := by
    simpa using hLeft.takeWhile_reverse.symm.trans hRight.takeWhile_reverse
  rw [hStem] at hSame
  exact ⟨List.append_cancel_right hSame, hStem⟩

end Parts

/-! ## Import statements -/

/-- A path without quotes, backslashes and line feeds. -/
def IsPlainPath (path : String) : Prop :=
  ∀ c ∈ path.toList, Token.isQuote c = false ∧ c ≠ '\\' ∧ c ≠ '\n'

namespace Import

/-- The modifier of an import, in front of the path. -/
def modifierText (entry : Import) : List Char :=
  match entry.modifier with
  | none => []
  | some modifier => modifier.text.toList ++ [' ']

/-- The statement that imports a file: its path is in quotes and has the file extension. -/
def statement (entry : Import) : List Char :=
  "import".toList ++ ' ' :: (entry.modifierText ++
    '"' :: ((entry.path ++ ".proto").toList ++ "\" ;".toList))

/-- The import that is recorded for a statement. -/
def recorded (entry : Import) : Import :=
  { entry with path := String.ofList (Grammar.cutExtension entry.path.toList) }

@[simp] theorem modifier_recorded (entry : Import) : entry.recorded.modifier = entry.modifier := by
  simp only [recorded]

@[simp] theorem toList_path_recorded (entry : Import) :
    entry.recorded.path.toList = Grammar.cutExtension entry.path.toList := by
  simp only [recorded, String.toList_ofList]

end Import

/-- Import statements, with a gap after each. -/
def importSource (gap : List Char) (entries : List Import) : String :=
  String.ofList (entries.flatMap fun entry => entry.statement ++ gap)

section Scanning

variable {gap later rest : List Char} {pieces : List Piece}

theorem isGap_space : IsGap [' '] :=
  .space (by decide) .nil

/-- A word is read in front of a space. -/
theorem Splits.word {text : List Char} (hGap : IsGap gap) (hText : text ≠ [])
    (hPlain : ∀ c ∈ text, isSeparator c = false ∧ c ≠ '/')
    (hLater : Splits (' ' :: later) pieces rest) :
    Splits (gap ++ (text ++ ' ' :: later)) (⟨gap, .word text⟩ :: pieces) rest := by
  have hStands : (Lexeme.word text).StandsBefore (' ' :: later) := by
    refine ⟨hText, .inl (by decide), fun after hAfter hSome hEnds => ?_⟩
    obtain ⟨c, tail, rfl⟩ := List.exists_cons_of_ne_nil hSome
    obtain ⟨hSeparator, hSlash⟩ := hPlain c (hAfter.subset (by simp))
    rcases hEnds with hIs | ⟨hIs, -⟩
    · rw [hSeparator] at hIs
      cases hIs
    · exact hSlash hIs
  exact .cons hGap hStands hLater

/-- A text without backslashes, line feeds and its quote can stand between quotes. -/
theorem isQuoted_of_plain {quote : Char} {body : List Char}
    (hBody : ∀ c ∈ body, c ≠ '\\' ∧ c ≠ '\n' ∧ c ≠ quote) : IsQuoted quote body := by
  induction body with
  | nil => exact .nil
  | cons c body ih =>
      obtain ⟨⟨hBackslash, hLine, hQuote⟩, hRest⟩ := List.forall_mem_cons.mp hBody
      exact .plain hBackslash hLine hQuote (ih hRest)

theorem IsPlainPath.isQuoted {path : String} (hPath : IsPlainPath path) :
    IsQuoted '"' (path ++ ".proto").toList := by
  refine isQuoted_of_plain fun c hMem => ?_
  rw [String.toList_append, List.mem_append] at hMem
  rcases hMem with hInside | hExtension
  · obtain ⟨hQuote, hBackslash, hLine⟩ := hPath c hInside
    refine ⟨hBackslash, hLine, ?_⟩
    rintro rfl
    cases hQuote
  · simp only [String.reduceToList] at hExtension
    revert c
    simp

theorem IsPlainPath.startsQuoted {path : String} (hPath : IsPlainPath path) :
    Token.startsQuoted path = false := by
  cases hQuoted : Token.startsQuoted path with
  | false => rfl
  | true =>
      obtain ⟨quote, rest, hText, hQuote⟩ := Token.exists_of_startsQuoted hQuoted
      obtain ⟨hPlain, -⟩ := hPath quote (by simp [hText])
      rcases hQuote with rfl | rfl <;> cases hPlain

/-- The end of an import statement is a literal and a semicolon. -/
theorem splits_importPath {path : String} (hPath : IsPlainPath path)
    (hLater : Splits later pieces rest) :
    Splits (' ' :: '"' :: ((path ++ ".proto").toList ++ ("\" ;".toList ++ later)))
      (⟨[' '], .literal '"' (path ++ ".proto").toList⟩ :: ⟨[' '], .mark ';'⟩ :: pieces) rest := by
  have hMark : (Lexeme.mark ';').StandsBefore later := show Token.isMark ';' = true by decide
  have hEnd : Splits (' ' :: ';' :: later) (⟨[' '], .mark ';'⟩ :: pieces) rest :=
    .cons isGap_space hMark hLater
  have hLiteral : (Lexeme.literal '"' (path ++ ".proto").toList).StandsBefore
      (' ' :: ';' :: later) := ⟨by decide, hPath.isQuoted⟩
  simpa [Lexeme.slice] using Splits.cons isGap_space hLiteral hEnd

/-- The modifier of an import, if there is one, is a word in front of the path. -/
theorem exists_splits_modifier (entry : Import) (hLater : Splits (' ' :: later) pieces rest) :
    ∃ written, Splits (' ' :: (entry.modifierText ++ later)) (written ++ pieces) rest ∧
      tokensOf written = (entry.modifier.map ImportModifier.text).toList := by
  rcases hModifier : entry.modifier with _ | modifier
  · refine ⟨[], ?_, rfl⟩
    simpa [Import.modifierText, hModifier] using hLater
  · have hWord : modifier.text.toList ≠ [] ∧
        ∀ c ∈ modifier.text.toList, isSeparator c = false ∧ c ≠ '/' := by
      cases modifier <;>
        simp [ImportModifier.text, isSeparator, Scanner.isSpace, Token.isMark, Token.marks,
          Token.isQuote]
    refine ⟨[⟨[' '], .word modifier.text.toList⟩], ?_, ?_⟩
    · simpa [Import.modifierText, hModifier] using
        Splits.word isGap_space hWord.1 hWord.2 hLater
    · simp [tokensOf, Lexeme.token, Lexeme.slice]

/-- An import statement is its tokens, with gaps between them. -/
theorem exists_splits_statement {entry : Import} (hGap : IsGap gap)
    (hPath : IsPlainPath entry.path) (hLater : Splits later pieces rest) :
    ∃ written, Splits (gap ++ (entry.statement ++ later)) (written ++ pieces) rest ∧
      tokensOf written = entry.tokens := by
  let keyword : Piece := ⟨gap, .word "import".toList⟩
  let path : Piece := ⟨[' '], .literal '"' (entry.path ++ ".proto").toList⟩
  let semicolon : Piece := ⟨[' '], .mark ';'⟩
  obtain ⟨modifier, hModifier, hTokens⟩ :=
    exists_splits_modifier entry (splits_importPath hPath hLater)
  refine ⟨keyword :: (modifier ++ [path, semicolon]), ?_, ?_⟩
  · have hText : entry.statement ++ later = "import".toList ++ ' ' :: (entry.modifierText ++
        '"' :: ((entry.path ++ ".proto").toList ++ ("\" ;".toList ++ later))) := by
      unfold Import.statement
      -- the characters of the keyword do not matter here
      generalize "import".toList = keyword
      simp only [List.append_assoc, List.cons_append]
    have hPieces : keyword :: (modifier ++ [path, semicolon]) ++ pieces =
        keyword :: (modifier ++ path :: semicolon :: pieces) := by
      simp only [List.cons_append, List.append_assoc, List.nil_append]
    have hWord : ∀ c ∈ "import".toList, isSeparator c = false ∧ c ≠ '/' := by
      simp [isSeparator, Scanner.isSpace, Token.isMark, Token.marks, Token.isQuote]
    rw [hText, hPieces]
    exact .word hGap (by decide) hWord hModifier
  · have hKeyword : keyword.lexeme.token = Keyword.importFile.text :=
      String.ofList_toList
    have hPath : path.lexeme.token = Token.quoted (entry.path ++ ".proto") := by
      rw [← String.toList_inj, Lexeme.toList_literal, toList_quoted]
    have hSemicolon : semicolon.lexeme.token = ";" := rfl
    have hWritten : tokensOf (keyword :: (modifier ++ [path, semicolon])) =
        keyword.lexeme.token ::
          (tokensOf modifier ++ [path.lexeme.token, semicolon.lexeme.token]) := by
      rw [tokensOf, List.map_cons, List.map_append, tokensOf]
      rfl
    rw [hWritten, hTokens, hKeyword, hPath, hSemicolon, Import.tokens]

end Scanning

section Source

variable {entries : List Import}

/-- Import statements are scanned to the tokens of the imports. -/
theorem tokenize_importSource {gap : List Char} (hGap : IsGap gap)
    (hPaths : ∀ entry ∈ entries, IsPlainPath entry.path) :
    tokenize (importSource gap entries) = .ok (entries.flatMap Import.tokens) := by
  -- what is behind a statement goes on with a gap, so another one may be in front of it
  have hSplits : ∀ lead, IsGap lead → ∃ pieces last,
      Splits (lead ++ entries.flatMap fun entry => entry.statement ++ gap) pieces last ∧
        IsGap last ∧ tokensOf pieces = entries.flatMap Import.tokens := by
    induction entries with
    | nil => exact fun lead hLead => ⟨[], lead, by simpa using .nil, hLead, rfl⟩
    | cons entry entries ih =>
        intro lead hLead
        rw [List.forall_mem_cons] at hPaths
        obtain ⟨pieces, last, hLater, hLast, hTokens⟩ := ih hPaths.2 gap hGap
        obtain ⟨written, hWritten, hEntry⟩ := exists_splits_statement hLead hPaths.1 hLater
        refine ⟨written ++ pieces, last, by simpa using hWritten, hLast, ?_⟩
        rw [tokensOf] at hTokens hEntry ⊢
        rw [List.map_append, hEntry, hTokens, List.flatMap_cons]
  obtain ⟨pieces, last, hPieces, hLast, hTokens⟩ := hSplits [] .nil
  rw [tokenize, Scanner.ofText, importSource, String.toList_ofList, ← hTokens]
  exact Scanner.tokens_of_splits_gap hPieces hLast 1

namespace Grammar

open ProtoIdl.Parser

/-- An import statement is read to the import that is recorded for it. -/
theorem reads_importStatement {levels : Nat} {rest : List Token} {entry : Import}
    (hPath : IsPlainPath entry.path) {schema : Schema} (hComments : schema.comments = [])
    (started : Bool) :
    (statement ⟨schema, started⟩ ([], Keyword.importFile.text)).Reads levels
      (entry.tokens.tail ++ rest)
      ⟨{ schema with imports := schema.imports ++ [entry.recorded] }, true⟩ rest := by
  have hSame : (if started then schema else { schema with comments := [] }) = schema := by
    rw [← hComments, ite_self]
  have hKeyword : Keyword.ofToken? Keyword.importFile.text = some .importFile := by decide
  have hToken : Keyword.importFile.text ≠ ";" := by decide
  rw [statement, if_neg hToken]
  simp only [hSame, hKeyword]
  exact .bind (.bind (reads_importRest hPath.startsQuoted) (.pure _)) (.pure _)

/-- Import statements are read to the imports that are recorded for them. -/
theorem reads_imports (levels : Nat) (hPaths : ∀ entry ∈ entries, IsPlainPath entry.path)
    (schema : Schema) (hComments : schema.comments = []) (started : Bool) :
    ∃ done, (loop statementHead statement ⟨schema, started⟩).Reads levels
      (entries.flatMap Import.tokens)
      ⟨{ schema with imports := schema.imports ++ entries.map Import.recorded }, done⟩ [] := by
  induction entries generalizing schema started with
  | nil =>
      refine ⟨started, ?_⟩
      rw [List.map_nil, List.append_nil]
      exact reads_loop_done reads_statementHead_done
  | cons entry entries ih =>
      rw [List.forall_mem_cons] at hPaths
      obtain ⟨done, hRest⟩ :=
        ih hPaths.2 { schema with imports := schema.imports ++ [entry.recorded] } hComments true
      refine ⟨done, ?_⟩
      rw [List.append_assoc] at hRest
      exact reads_loop_item (reads_statementHead printableComments_nil (by decide))
        (reads_importStatement hPaths.1 hComments started) hRest

end Grammar

theorem readFile_imports (hPaths : ∀ entry ∈ entries, IsPlainPath entry.path)
    (settings : Settings) :
    readFile (entries.flatMap Import.tokens) settings =
      .ok { Schema.new settings.version with imports := entries.map Import.recorded } := by
  obtain ⟨done, hReads⟩ :=
    Grammar.reads_imports settings.maxDepth hPaths (.new settings.version) rfl false
  obtain ⟨after, hRun, -, -⟩ := hReads
    (.ofTokens (entries.flatMap Import.tokens) settings.maxDepth) rfl (by simp [Cursor.ofTokens])
  rw [readFile_eq, hRun]
  rfl

/-- A schema of imports alone is linked as it is. -/
theorem linked_imports (version : LanguageVersion) (imports : List Import) :
    Schema.linked { Schema.new version with imports := imports } =
      .ok { Schema.new version with imports := imports } := rfl

/-- Import statements alone are parsed to the imports that are recorded for them. -/
theorem parse_importSource {gap : List Char} (hGap : IsGap gap)
    (hPaths : ∀ entry ∈ entries, IsPlainPath entry.path) (settings : Settings) :
    parse (importSource gap entries) settings =
      .ok { Schema.new settings.version with imports := entries.map Import.recorded } := by
  rw [parse_of_tokenize (tokenize_importSource hGap hPaths), readFile_imports hPaths]
  show (if settings.link then _ else _) = _
  rw [linked_imports, ite_self]

/-- The path that is recorded is the path itself just if the last segment has no dot. -/
theorem Import.recorded_eq_iff {entry : Import} {folder stem dotted : List Char}
    (hParts : SplitsPath entry.path.toList folder stem dotted) :
    entry.recorded = entry ↔ dotted = [] := by
  have hPath : entry.recorded = entry ↔ entry.recorded.path.toList = entry.path.toList := by
    rw [String.toList_inj]
    cases entry
    simp [Import.recorded]
  rw [hPath, Import.toList_path_recorded, hParts.cutExtension_eq, hParts.path_eq,
    ← List.append_assoc, List.self_eq_append_right]

/-- Two imports are recorded with one path just if their paths agree up to the first dot of the
last segment. -/
theorem Import.recorded_path_eq_iff (first second : Import) :
    first.recorded.path = second.recorded.path ↔
      ∃ folder stem dotted dotted', SplitsPath first.path.toList folder stem dotted ∧
        SplitsPath second.path.toList folder stem dotted' := by
  rw [← String.toList_inj, Import.toList_path_recorded, Import.toList_path_recorded]
  constructor
  · intro hSame
    obtain ⟨folder, stem, dotted, hFirst⟩ := exists_splitsPath first.path.toList
    obtain ⟨folder', stem', dotted', hSecond⟩ := exists_splitsPath second.path.toList
    rw [hFirst.cutExtension_eq, hSecond.cutExtension_eq] at hSame
    obtain ⟨rfl, rfl⟩ := hFirst.append_inj hSecond hSame
    exact ⟨folder, stem, dotted, dotted', hFirst, hSecond⟩
  · rintro ⟨folder, stem, dotted, dotted', hFirst, hSecond⟩
    rw [hFirst.cutExtension_eq, hSecond.cutExtension_eq]

end Source

/-- Import statements for `.proto` files are parsed, and each is recorded with its modifier and
with the path in front of the file extension, up to the first dot of the last segment.  So the
path is recorded as it is exactly if the last segment has no dot, and two statements record one
path exactly if theirs agree up to there. -/
theorem parse_imports {gap : List Char} {entries : List Import} (hGap : IsGap gap)
    (hPaths : ∀ entry ∈ entries, IsPlainPath entry.path) :
    (∀ settings, parse (importSource gap entries) settings =
      .ok { Schema.new settings.version with imports := entries.map Import.recorded }) ∧
    (∀ entry ∈ entries, entry.recorded.modifier = entry.modifier ∧
      ∃ folder stem dotted, SplitsPath entry.path.toList folder stem dotted ∧
        entry.recorded.path.toList = folder ++ stem ∧
          (entry.recorded = entry ↔ dotted = [])) ∧
    ∀ first ∈ entries, ∀ second ∈ entries,
      (first.recorded.path = second.recorded.path ↔
        ∃ folder stem dotted dotted', SplitsPath first.path.toList folder stem dotted ∧
          SplitsPath second.path.toList folder stem dotted') := by
  refine ⟨parse_importSource hGap hPaths, fun entry _ => ?_, fun first _ second _ => ?_⟩
  · obtain ⟨folder, stem, dotted, hParts⟩ := exists_splitsPath entry.path.toList
    refine ⟨entry.modifier_recorded, folder, stem, dotted, hParts, ?_,
      Import.recorded_eq_iff hParts⟩
    rw [Import.toList_path_recorded, hParts.cutExtension_eq]
  · exact Import.recorded_path_eq_iff first second

/-- Imports of two files, one of them in a folder. -/
theorem parse_imports_folder :
    parse "import \"lib/a.proto\" ;\nimport public \"b.proto\" ;\n" {} =
      .ok { Schema.new .proto3 with imports := [⟨"lib/a", none⟩, ⟨"b", some .pub⟩] } := by
  have hGap : IsGap ['\n'] := .space (by decide) .nil
  have hPaths : ∀ entry ∈ [⟨"lib/a", none⟩, ⟨"b", some .pub⟩], IsPlainPath (Import.path entry) := by
    simp [IsPlainPath, Token.isQuote]
  have hParse := (parse_imports hGap hPaths).1 {}
  have hRecorded : [⟨"lib/a", none⟩, ⟨"b", some .pub⟩].map Import.recorded =
      [⟨"lib/a", none⟩, ⟨"b", some .pub⟩] := by decide
  rw [hRecorded] at hParse
  exact hParse

/-- Two files whose names differ after their first dots are recorded as one. -/
theorem second_dot_lost :
    parse "import \"a.b.proto\" ;\nimport \"a.c.proto\" ;\n" {} =
      .ok { Schema.new .proto3 with imports := [⟨"a", none⟩, ⟨"a", none⟩] } := by
  have hGap : IsGap ['\n'] := .space (by decide) .nil
  have hPaths : ∀ entry ∈ [⟨"a.b", none⟩, ⟨"a.c", none⟩], IsPlainPath (Import.path entry) := by
    simp [IsPlainPath, Token.isQuote]
  have hParse := parse_importSource hGap hPaths {}
  have hRecorded : [⟨"a.b", none⟩, ⟨"a.c", none⟩].map Import.recorded =
      [⟨"a", none⟩, ⟨"a", none⟩] := by decide
  rw [hRecorded] at hParse
  exact hParse

end ProtoIdl
