import ProtoIdl.Proofs.Comments.Meaning
import ProtoIdl.Proofs.Commented.Schema
import ProtoIdl.Proofs.RoundTrip.File
import ProtoIdl.Proofs.Token.Lines

/-!
# Comment lines in a source text

The text of a file can be cut behind every punctuation mark: a lexeme that begins later does not
change how the mark, or what is in front of it, is scanned.  Comment lines can therefore be written
in front of every declaration, each with a gap before it, and they are scanned to comments in this
place and to nothing else.

So comment lines in front of a declaration become its comments, one for each line, and those of the
file too if it is the first statement.
-/

namespace ProtoIdl

/-! ## Cutting a text -/

/-- The text has a punctuation mark for its last character. -/
def EndsWithMark (text : List Char) : Prop :=
  ∃ start c, text = start ++ [c] ∧ Token.isMark c = true

theorem EndsWithMark.ne_nil {text : List Char} (hText : EndsWithMark text) : text ≠ [] := by
  obtain ⟨start, c, rfl, -⟩ := hText
  simp

theorem EndsWithMark.append {text : List Char} (hText : EndsWithMark text) (before : List Char) :
    EndsWithMark (before ++ text) := by
  obtain ⟨start, c, rfl, hMark⟩ := hText
  exact ⟨before ++ start, c, (List.append_assoc ..).symm, hMark⟩

/-- Whether a word ends in front of a text with a mark at its end does not depend on what
follows. -/
theorem endsWord_append_iff {text : List Char} (hText : EndsWithMark text)
    (rest more : List Char) : EndsWord (text ++ rest) ↔ EndsWord (text ++ more) := by
  obtain ⟨start, c, rfl, hMark⟩ := hText
  have hSeparator : isSeparator c = true := by simp [isSeparator, hMark]
  cases start with
  | nil => exact ⟨fun _ => .inl hSeparator, fun _ => .inl hSeparator⟩
  | cons first start =>
      have hSome : start ++ [c] ≠ [] := by simp
      exact (endsWord_cons_append hSome rest).trans (endsWord_cons_append hSome more).symm

namespace Lexeme

variable {lexeme : Lexeme}

/-- Where a lexeme ends does not depend on what comes behind a mark that follows. -/
theorem StandsBefore.replace {text rest : List Char} (hText : EndsWithMark text)
    (hStands : lexeme.StandsBefore (text ++ rest)) (more : List Char) :
    lexeme.StandsBefore (text ++ more) := by
  cases lexeme with
  | mark c => exact hStands
  | literal quote body => exact hStands
  | comment body =>
      obtain ⟨hBody, hEnd⟩ := hStands
      have hFeed := hEnd.resolve_left (List.append_ne_nil_of_left_ne_nil hText.ne_nil rest)
      rw [List.head?_append_of_ne_nil _ hText.ne_nil] at hFeed
      refine ⟨hBody, .inr ?_⟩
      rw [List.head?_append_of_ne_nil _ hText.ne_nil]
      exact hFeed
  | word letters =>
      obtain ⟨hLetters, hEnds, hWithin⟩ := hStands
      refine ⟨hLetters, (endsWord_append_iff hText rest more).mp hEnds,
        fun after hAfter hSome hStops => hWithin after hAfter hSome ?_⟩
      rw [← List.append_assoc] at hStops ⊢
      exact (endsWord_append_iff (hText.append after) more rest).mp hStops

/-- Only a mark has a token that is a punctuation mark. -/
theorem StandsBefore.exists_mark {rest : List Char} (hStands : lexeme.StandsBefore rest)
    (hMark : lexeme.token.isPunctuation = true) : ∃ c, lexeme = mark c := by
  have hKind : TokenClass.mark.Holds lexeme.token.toList := by
    unfold Token.isPunctuation at hMark
    split at hMark
    · next c hText => exact ⟨c, hMark, hText⟩
    · cases hMark
  have hSame : lexeme.kind = .mark := by
    rw [TokenClass.eq_ofText hStands.kind_holds, TokenClass.eq_ofText hKind]
  cases lexeme with
  | mark c => exact ⟨c, rfl⟩
  | _ => cases hSame

end Lexeme

namespace Splits

variable {text rest : List Char} {pieces front back : List Piece}

/-- Pieces that end with a mark are the same in front of any other text. -/
theorem exists_before (hSplits : Splits text pieces rest) (hMarked : Marked (tokensOf pieces)) :
    ∃ before, text = before ++ rest ∧ (pieces ≠ [] → EndsWithMark before) ∧
      ∀ more, Splits (before ++ more) pieces more := by
  induction hSplits with
  | nil => exact ⟨[], rfl, fun hSome => absurd rfl hSome, fun _ => .nil⟩
  | @cons gap later rest lexeme pieces hGap hLexeme hLater ih =>
      by_cases hLast : pieces = []
      · -- the last piece is the mark
        subst hLast
        cases hLater
        obtain ⟨c, rfl⟩ := hLexeme.exists_mark (hMarked _ rfl)
        refine ⟨gap ++ [c], by simp [Lexeme.slice], fun _ => ⟨gap, c, rfl, hLexeme⟩, fun more => ?_⟩
        have hStands : (Lexeme.mark c).StandsBefore more := hLexeme
        rw [List.append_assoc]
        exact .cons hGap hStands .nil
      · have hTokens : tokensOf pieces ≠ [] := by simpa [tokensOf] using hLast
        have hRest : Marked (tokensOf pieces) := fun token hToken =>
          hMarked token ((List.getLast?_cons_of_ne_nil hTokens).trans hToken)
        obtain ⟨before, rfl, hBefore, hMore⟩ := ih hRest
        have hMark := hBefore hLast
        refine ⟨gap ++ (lexeme.slice ++ before), by simp, fun _ => ?_, fun more => ?_⟩
        · exact (hMark.append lexeme.slice).append gap
        · rw [List.append_assoc, List.append_assoc]
          exact .cons hGap (hLexeme.replace hMark more) (hMore more)

/-- Pieces can be told apart at every place. -/
theorem of_append (hSplits : Splits text (front ++ back) rest) :
    ∃ middle, Splits text front middle ∧ Splits middle back rest := by
  induction front generalizing text with
  | nil => exact ⟨text, .nil, hSplits⟩
  | cons piece front ih =>
      cases hSplits with
      | cons hGap hLexeme hLater =>
          obtain ⟨middle, hFront, hBack⟩ := ih hLater
          exact ⟨middle, .cons hGap hLexeme hFront, hBack⟩

/-- A text that scans is a gap and what does not begin with one. -/
theorem exists_gap (hSplits : Splits text pieces rest) (hRest : IsGap rest) :
    ∃ gap after, text = gap ++ after ∧ IsGap gap ∧ ¬StartsGap after ∧
      ∃ bare last, Splits after bare last ∧ IsGap last ∧ tokensOf bare = tokensOf pieces := by
  cases hSplits with
  | nil => exact ⟨text, [], by simp, hRest, fun hGap => hGap, [], [], .nil, .nil, rfl⟩
  | @cons gap later _ lexeme pieces hGap hLexeme hLater =>
      exact ⟨gap, lexeme.slice ++ later, rfl, hGap, hLexeme.not_startsGap, ⟨[], lexeme⟩ :: pieces,
        rest, .cons .nil hLexeme hLater, hRest, rfl⟩

end Splits

/-- A text is scanned to the tokens of its pieces and, behind a gap, to those of its rest. -/
theorem tokenize_of_splits {source rest : String} {pieces : List Piece} {gap : List Char}
    {later : List Token} (hSplits : Splits source.toList pieces (gap ++ rest.toList))
    (hGap : IsGap gap) (hRest : tokenize rest = .ok later) :
    tokenize source = .ok (tokensOf pieces ++ later) := by
  have hLater := fun lines => (Scanner.tokens_add rest.toList 1 lines).1 later hRest
  rw [tokenize, Scanner.ofText, Scanner.tokens_of_splits hSplits, Scanner.tokens_gap_append hGap,
    Nat.add_assoc, hLater]
  rfl

/-- A text can be cut behind each of its marks: into what is scanned to the tokens up to there,
whatever follows it, a gap, and the text of the others, which does not begin with a gap. -/
theorem exists_cut {source : String} {front back : List Token}
    (hTokens : tokenize source = .ok (front ++ back)) (hMarked : Marked front) :
    ∃ before gap after : String, source = before ++ gap ++ after ∧ IsGap gap.toList ∧
      ¬StartsGap after.toList ∧ tokenize after = .ok back ∧
      ∀ more later, tokenize more = .ok later →
        tokenize (before ++ more) = .ok (front ++ later) := by
  obtain ⟨pieces, last, hSplits, hLast, hPieces⟩ := Scanner.splits_of_tokens hTokens
  obtain ⟨frontPieces, backPieces, rfl, rfl, rfl⟩ := List.map_eq_append_iff.mp hPieces.symm
  obtain ⟨middle, hFront, hBack⟩ := hSplits.of_append
  obtain ⟨before, hBefore, -, hMore⟩ := hFront.exists_before hMarked
  obtain ⟨gap, after, rfl, hGap, hStart, bare, stop, hAfter, hStop, hBare⟩ := hBack.exists_gap hLast
  refine ⟨String.ofList before, String.ofList gap, String.ofList after, ?_, ?_, ?_, ?_, ?_⟩
  · rw [← String.toList_inj]
    simpa [Scanner.ofText] using hBefore
  · simpa using hGap
  · simpa using hStart
  · rw [tokenize, Scanner.ofText, String.toList_ofList, Scanner.tokens_of_splits_gap hAfter hStop,
      hBare]
    rfl
  · intro more later hLater
    have hText : Splits (String.ofList before ++ more).toList frontPieces ([] ++ more.toList) := by
      simpa using hMore more.toList
    exact tokenize_of_splits hText .nil hLater

/-! ## Comment lines -/

/-- A line comment with a gap in front of it. -/
structure CommentLine where
  gap : String
  body : String
  isGap : IsGap gap.toList
  oneLine : '\n' ∉ body.toList

namespace CommentLine

/-- The text of a comment line, up to and including the line feed at its end. -/
def text (line : CommentLine) : String :=
  line.gap ++ "//" ++ line.body ++ "\n"

/-- What is recorded of a comment line: its body, trimmed, with a space for every plus sign. -/
def shown (line : CommentLine) : String :=
  String.ofList ((Text.trim line.body.toList).map fun c => if c = '+' then ' ' else c)

/-- The token of a comment line. -/
def token (line : CommentLine) : Token :=
  Scanner.commentToken line.body.toList

theorem isComment_token (line : CommentLine) : line.token.isComment = true := by
  simp [token, Scanner.commentToken, Token.isComment]

/-- The body of the token is what is recorded. -/
theorem commentBody_token (line : CommentLine) : line.token.commentBody = line.shown := by
  simp [token, Scanner.commentToken, Token.commentBody, shown]

/-- A comment line is scanned to its token, whatever follows it. -/
theorem tokenize_append (line : CommentLine) {rest : String} {later : List Token}
    (hRest : tokenize rest = .ok later) :
    tokenize (line.text ++ rest) = .ok (line.token :: later) := by
  have hStands : (Lexeme.comment line.body.toList).StandsBefore (['\n'] ++ rest.toList) :=
    ⟨line.oneLine, .inr rfl⟩
  have hSplits : Splits (line.text ++ rest).toList [⟨line.gap.toList, .comment line.body.toList⟩]
      (['\n'] ++ rest.toList) := by
    have hText : (line.text ++ rest).toList = line.gap.toList ++
        ((Lexeme.comment line.body.toList).slice ++ (['\n'] ++ rest.toList)) := by
      simp [text, Lexeme.slice]
    rw [hText]
    exact .cons line.isGap hStands .nil
  exact tokenize_of_splits hSplits (.space isSpace_lineFeed .nil) hRest

end CommentLine

/-- Comment lines, one after the other, and a gap behind the last of them. -/
structure CommentRun where
  lines : List CommentLine
  gap : String
  isGap : IsGap gap.toList

namespace CommentRun

/-- The text of the lines and of the last gap. -/
def text (run : CommentRun) : String :=
  String.join (run.lines.map CommentLine.text) ++ run.gap

/-- What is recorded of the lines. -/
def shown (run : CommentRun) : List String :=
  run.lines.map CommentLine.shown

/-- The tokens of the lines. -/
def tokens (run : CommentRun) : List Token :=
  run.lines.map CommentLine.token

theorem isComment_of_mem_tokens (run : CommentRun) : ∀ token ∈ run.tokens,
    token.isComment = true := by
  intro token hMem
  obtain ⟨line, -, rfl⟩ := List.mem_map.mp hMem
  exact line.isComment_token

theorem map_commentBody_tokens (run : CommentRun) :
    run.tokens.map Token.commentBody = run.shown := by
  rw [tokens, shown, List.map_map]
  exact List.map_congr_left fun line _ => line.commentBody_token

/-- Comment lines are scanned to their tokens, whatever follows them. -/
theorem tokenize_append (run : CommentRun) {rest : String} {later : List Token}
    (hRest : tokenize rest = .ok later) :
    tokenize (run.text ++ rest) = .ok (run.tokens ++ later) := by
  obtain ⟨lines, gap, hGap⟩ := run
  have hBehind : tokenize (gap ++ rest) = .ok later := by
    have hSplits : Splits (gap ++ rest).toList [] (gap.toList ++ rest.toList) := by
      rw [String.toList_append]
      exact .nil
    exact tokenize_of_splits hSplits hGap hRest
  induction lines with
  | nil => simpa [text, tokens] using hBehind
  | cons line lines ih =>
      simpa [text, tokens, String.append_assoc] using line.tokenize_append ih

end CommentRun

/-! ## Comments of declarations -/

/-- A file without comments is read to a schema without comments. -/
theorem withoutComments_eq_self_of_readFile {tokens : List Token} {settings : Settings}
    {schema : Schema} (hPlain : ∀ token ∈ tokens, token.isComment = false)
    (hRead : readFile tokens settings = .ok schema) : schema.withoutComments = schema := by
  have hTokens : Token.withoutComments tokens = tokens :=
    List.filter_eq_self.mpr fun token hMem => by simp [hPlain token hMem]
  rcases readFile_withoutComments hRead with ⟨-, hSame⟩ | ⟨-, fault, hFails⟩
  · rw [hTokens, hRead] at hSame
    exact (Except.ok.inj hSame).symm
  · rw [hTokens, hRead] at hFails
    cases hFails

/-- Every declaration of a file without comments has a place among the tokens of the file. -/
theorem readFile_comments_before {tokens : List Token} {settings : Settings} {schema : Schema}
    {target : Declaration} {family : List String → Schema}
    (hPlain : ∀ token ∈ tokens, token.isComment = false)
    (hRead : readFile tokens settings = .ok schema) (hSlot : schema.Slot target family) :
    ∃ front back, tokens = front ++ back ∧ Marked front ∧ target.Opens settings.maxDepth back ∧
      ∀ comments : List Token, (∀ token ∈ comments, token.isComment = true) →
        readFile (front ++ (comments ++ back)) settings =
          .ok { family (comments.map Token.commentBody) with
            comments := Grammar.fileComments front (comments.map Token.commentBody) } := by
  rw [readFile_eq] at hRead
  split at hRead
  · next final last hRun =>
      cases hRead
      obtain ⟨front, back, hTokens, hMarked, hOpens, hReads⟩ :=
        Grammar.filePlaces (fun _ => Schema.not_slot_new _) hPlain (Nat.zero_le _) hRun hSlot
      refine ⟨front, back, hTokens, hMarked, hOpens, fun comments hComments => ?_⟩
      obtain ⟨stop, hAnswer, -, -⟩ := hReads comments hComments
        (.ofTokens (front ++ (comments ++ back)) settings.maxDepth) rfl rfl rfl
      rw [readFile_eq, hAnswer]
  · cases hRead

/-- Comment lines that are written in front of a declaration of a file without comments become its
comments: one for each line, in order, and each the trimmed text of the line with a space for every
plus sign.  No other declaration of the schema has comments.  The file itself has the same comments
if the declaration is the first statement, where a semicolon by itself is none, and no comments
otherwise.

The lines, each behind a gap, and a last gap stand in place of the gap that was in front of the
declaration, so they can be anywhere in it.  What is in front of the lines is empty or ends with a
mark, so they come before the first word of the declaration, be it `optional`. -/
theorem parse_comments_before {source : String} {settings : Settings} {tokens : List Token}
    {schema : Schema} {target : Declaration} {family : List String → Schema}
    (hUnlinked : settings.link = false) (hTokens : tokenize source = .ok tokens)
    (hPlain : ∀ token ∈ tokens, token.isComment = false)
    (hParse : parse source settings = .ok schema) (hSlot : schema.Slot target family) :
    schema.withoutComments = schema ∧
      ∃ (before gap after : String) (front back : List Token),
        source = before ++ gap ++ after ∧ IsGap gap.toList ∧ ¬StartsGap after.toList ∧
        tokenize before = .ok front ∧ tokenize after = .ok back ∧
        Marked front ∧ target.Opens settings.maxDepth back ∧
        ∀ run : CommentRun, parse (before ++ run.text ++ after) settings =
          .ok { family run.shown with comments := Grammar.fileComments front run.shown } := by
  have hWhole : ∀ {text : String} {tokens : List Token}, tokenize text = .ok tokens →
      parse text settings = readFile tokens settings := by
    intro text tokens hText
    rw [parse_of_tokenize hText, hUnlinked]
    cases readFile tokens settings <;> rfl
  rw [hWhole hTokens] at hParse
  obtain ⟨front, back, rfl, hMarked, hOpens, hReads⟩ :=
    readFile_comments_before hPlain hParse hSlot
  obtain ⟨before, gap, after, rfl, hGap, hStart, hAfter, hBefore⟩ := exists_cut hTokens hMarked
  have hFront : tokenize before = .ok front := by
    have hNone : tokenize "" = .ok [] := by cbv
    simpa using hBefore "" [] hNone
  refine ⟨withoutComments_eq_self_of_readFile hPlain hParse, before, gap, after, front, back, rfl,
    hGap, hStart, hFront, hAfter, hMarked, hOpens, fun run => ?_⟩
  have hText : tokenize (before ++ run.text ++ after) = .ok (front ++ (run.tokens ++ back)) := by
    rw [String.append_assoc]
    exact hBefore _ _ (run.tokenize_append hAfter)
  rw [hWhole hText, hReads run.tokens run.isComment_of_mem_tokens, run.map_commentBody_tokens]

/-- Two comment lines in front of an enum value, the second of them empty. -/
theorem parse_comments_before_value :
    ∃ (before gap after : String) (front : List Token),
      "syntax = \"proto3\";\nenum E \x7b A = 0; \x7d" = before ++ gap ++ after ∧
        IsGap gap.toList ∧ tokenize before = .ok front ∧ Marked front ∧
        parse (before ++ "\n// one+two \n/* */\t//\n" ++ after) ⟨.proto3, 64, false⟩ =
          .ok { Schema.new .proto3 with
            enums := [⟨"E", [⟨"A", 0, ∅, ["one two", ""]⟩], [], ∅, []⟩]
            comments := Grammar.fileComments front ["one two", ""] } := by
  let decl : EnumDecl := ⟨"E", [⟨"A", 0, ∅, []⟩], [], ∅, []⟩
  let schema : Schema := { Schema.new .proto3 with enums := [decl] }
  let tokens : List Token := "syntax" :: "=" :: "\"proto3\"" :: ";" :: (decl.tokens ++ [])
  have hTokens : tokenize "syntax = \"proto3\";\nenum E \x7b A = 0; \x7d" = .ok tokens := by cbv
  have hStatements : Grammar.FileReads 64 schema (.new .proto3) (decl.tokens ++ []) := by
    apply Grammar.fileReads_enum (by decide) (by decide) Parser.noSemicolonFirst_nil
    exact Parser.reads_loop_done reads_statementHead_done
  have hRead : readFile tokens ⟨.proto3, 64, false⟩ = .ok schema :=
    @Grammar.readFile_of_fileReads .proto3 schema ⟨.proto3, 64, false⟩ _ hStatements
  have hParse : parse "syntax = \"proto3\";\nenum E \x7b A = 0; \x7d" ⟨.proto3, 64, false⟩ =
      .ok schema := by
    rw [parse_of_tokenize hTokens, hRead]
    rfl
  have hSlot : schema.Slot (.value ⟨"A", 0, ∅, []⟩) fun comments =>
      { schema with enums := [⟨"E", [⟨"A", 0, ∅, comments⟩], [], ∅, []⟩] } :=
    .enum (.here (.member (.value (.here .own))))
  obtain ⟨-, before, gap, after, front, -, hSource, hGap, -, hFront, -, hMarked, -, hRun⟩ :=
    parse_comments_before rfl hTokens (by decide) hParse hSlot
  have hLead : IsGap "\n".toList := .space (by decide) .nil
  have hBlock : IsGap "/* */\t".toList :=
    .comment (show ¬['*', '/'] <:+: [' '] by decide) (.space (by decide) .nil)
  let run : CommentRun :=
    ⟨[⟨"\n", " one+two ", hLead, by decide⟩, ⟨"/* */\t", "", hBlock, by decide⟩], "", .nil⟩
  have hText : run.text = "\n// one+two \n/* */\t//\n" := by
    simp [run, CommentRun.text, CommentLine.text]
  have hShown : run.shown = ["one two", ""] := by cbv
  have hSame := hRun run
  rw [hText, hShown] at hSame
  exact ⟨before, gap, after, front, hSource, hGap, hFront, hMarked, hSame⟩

end ProtoIdl
