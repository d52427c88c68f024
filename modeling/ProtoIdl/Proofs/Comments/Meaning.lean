import Mathlib.Data.List.Permutation
import ProtoIdl.Parse
import ProtoIdl.Proofs.Comments.File
import ProtoIdl.Proofs.Comments.Linking
import ProtoIdl.Proofs.Parser.FileLoop
import ProtoIdl.Proofs.Token.Quotes

/-!
# What comments mean

Comments mean nothing, with one exception.  A source that parses does so without its
comments too, and to the same schema apart from the lists of comments, exactly if no comment
stands right after an equals sign.  A comment in that place has been read as the value of an
option, and without it there is no value.
-/

namespace ProtoIdl

/-- A file that is read is read without comments too, unless a comment stands for a value. -/
theorem readFile_withoutComments {tokens : List Token} {settings : Settings} {schema : Schema}
    (hRead : readFile tokens settings = .ok schema) :
    (¬Token.CommentAsValue tokens ∧
        readFile (Token.withoutComments tokens) settings = .ok schema.withoutComments) ∨
      (Token.CommentAsValue tokens ∧
        ∃ fault, readFile (Token.withoutComments tokens) settings = .error fault) := by
  unfold readFile at hRead ⊢
  cases hRun : (Grammar.file settings.version).run (.ofTokens tokens settings.maxDepth) with
  | error fault after =>
      rw [hRun] at hRead
      cases hRead
  | ok read last =>
      rw [hRun] at hRead
      cases hRead
      have hStart : (Cursor.ofTokens tokens settings.maxDepth).Aligned
          (Cursor.ofTokens (Token.withoutComments tokens) settings.maxDepth) :=
        ⟨rfl, rfl, rfl, by simp [Cursor.ofTokens], fun hPassed => hPassed⟩
      -- the file is read to its end, so all of its tokens lie behind the last cursor
      have hPassed : Token.PassedValue last.seen ↔ Token.CommentAsValue tokens := by
        obtain ⟨state, between, hLoop, hState⟩ := Parser.run_bind_eq_ok_iff.mp hRun
        have hEnd := Grammar.rest_of_run_statementLoop hLoop
        cases hState
        obtain ⟨_, _, used, hUsed, hSeen⟩ := Parser.onward_of_ok hLoop
        rw [hEnd, List.append_nil] at hUsed
        have hAll : last.seen = tokens.reverse := by
          rw [hSeen, ← hUsed]
          simp [Cursor.ofTokens]
        rw [hAll, Token.passedValue_reverse]
      rcases Grammar.mirrored_file settings.version _ hStart schema last hRun trivial with
        ⟨bareLast, hBare, hAligned⟩ | ⟨hSlip, fault, bareLast, hBare⟩
      · refine .inl ⟨fun hValue => hAligned.clean (hPassed.mpr hValue), ?_⟩
        rw [hBare]
      · refine .inr ⟨hPassed.mp hSlip, fault, ?_⟩
        rw [hBare]

/-- Linking comes to the same without comments. -/
theorem Schema.linked_withoutComments {schema linked : Schema}
    (hLinked : schema.linked = .ok linked) :
    schema.withoutComments.linked = .ok linked.withoutComments := by
  unfold Schema.linked at hLinked ⊢
  rw [schema.link_withoutComments]
  split at hLinked
  · next final hLink =>
      cases hLinked
      rw [hLink]
  · cases hLinked

/-- A list of whole tokens that is parsed is parsed without comments too, unless a comment
stands for a value. -/
theorem parseTokens_withoutComments {tokens : List Token} {settings : Settings}
    {schema : Schema} (hWhole : ∀ token ∈ tokens, token.opensQuote = false)
    (hParse : parseTokens tokens settings = .ok schema) :
    (¬Token.CommentAsValue tokens ∧
        parseTokens (Token.withoutComments tokens) settings = .ok schema.withoutComments) ∨
      (Token.CommentAsValue tokens ∧
        ∃ fault, parseTokens (Token.withoutComments tokens) settings = .error fault) := by
  have hBare : ∀ token ∈ Token.withoutComments tokens, token.opensQuote = false :=
    fun token hMem => hWhole token (List.mem_filter.mp hMem).1
  unfold parseTokens at hParse ⊢
  rw [Token.coalesce_eq_self hWhole] at hParse
  rw [Token.coalesce_eq_self hBare]
  cases hRead : readFile tokens settings with
  | error fault =>
      rw [hRead] at hParse
      cases hParse
  | ok read =>
      rw [hRead] at hParse
      rcases readFile_withoutComments hRead with ⟨hNone, hSame⟩ | ⟨hValue, fault, hFails⟩
      · -- the files read are the same apart from comments, and linking keeps them so
        refine .inl ⟨hNone, ?_⟩
        rw [hSame]
        by_cases hLink : settings.link
        · have hLinked : read.linked = .ok schema := by
            simpa [bind, Except.bind, hLink] using hParse
          simpa [bind, Except.bind, hLink] using Schema.linked_withoutComments hLinked
        · have hRest : read = schema := by
            simpa [bind, Except.bind, hLink, pure, Except.pure] using hParse
          simp [bind, Except.bind, hLink, pure, Except.pure, hRest]
      · refine .inr ⟨hValue, fault, ?_⟩
        rw [hFails]
        rfl

/-- A source that parses does so without its comments too, to the same schema without
comments, if no comment stands right after an equals sign; and if one does, what is left
without the comments does not parse. -/
theorem parse_withoutComments {source : String} {settings : Settings} {schema : Schema}
    (hParse : parse source settings = .ok schema) :
    ∃ tokens, tokenize source = .ok tokens ∧
      (¬Token.CommentAsValue tokens →
        parseTokens (Token.withoutComments tokens) settings = .ok schema.withoutComments) ∧
      (Token.CommentAsValue tokens →
        ∃ fault, parseTokens (Token.withoutComments tokens) settings = .error fault) := by
  unfold parse at hParse
  cases hTokens : tokenize source with
  | error fault =>
      rw [hTokens] at hParse
      cases hParse
  | ok tokens =>
      rw [hTokens] at hParse
      refine ⟨tokens, rfl, ?_⟩
      rcases parseTokens_withoutComments (Scanner.opensQuote_of_mem_tokens hTokens) hParse with
        ⟨hNone, hSame⟩ | ⟨hValue, hFails⟩
      · exact ⟨fun _ => hSame, fun hValue => absurd hValue hNone⟩
      · exact ⟨fun hNone => absurd hValue hNone, fun _ => hFails⟩

/-- The comment before an import belongs to the file, and without it the file is the same. -/
theorem parse_withoutComments_import :
    parseTokens (Token.withoutComments ["// a", "import", "\"b\"", ";"]) {} =
      .ok { Schema.new .proto3 with imports := [⟨"b", none⟩] } := by
  have hTokens : tokenize "// a\nimport \"b\";" = .ok ["// a", "import", "\"b\"", ";"] := by
    cbv
  have hRead : readFile ["// a", "import", "\"b\"", ";"] {} =
      .ok { Schema.new .proto3 with imports := [⟨"b", none⟩], comments := ["a"] } :=
    readFile_of_statement rfl rfl rfl
  have hParse : parse "// a\nimport \"b\";" {} =
      .ok { Schema.new .proto3 with imports := [⟨"b", none⟩], comments := ["a"] } := by
    unfold parse
    rw [hTokens]
    show (readFile (Token.coalesce _) {} >>= _) = _
    rw [coalesce_of_tokenize hTokens, hRead]
    rfl
  obtain ⟨tokens, hSame, hPlain, -⟩ := parse_withoutComments hParse
  rw [hTokens] at hSame
  cases hSame
  apply hPlain
  rw [← Token.passedValue_reverse]
  simp [Token.PassedValue]

/-- A comment after the equals sign of an option is its value, and without the comment the
semicolon stands where the value should. -/
theorem comment_becomes_value :
    (∃ schema, parse "option x = // c\n;" {} = .ok schema ∧
        schema.options.get? "x" = some (.text "// c")) ∧
      tokenize "option x = // c\n;" = .ok ["option", "x", "=", "// c", ";"] ∧
      parseTokens (Token.withoutComments ["option", "x", "=", "// c", ";"]) {} =
        .error (.unexpectedToken ";" "option" 3) := by
  have hTokens : tokenize "option x = // c\n;" = .ok ["option", "x", "=", "// c", ";"] := by cbv
  have hRead : readFile ["option", "x", "=", "// c", ";"] {} =
      .ok { Schema.new .proto3 with options := ⟨[("x", .text "// c")]⟩ } :=
    readFile_of_statement rfl rfl rfl
  have hBare : readFile ["option", "x", "=", ";"] {} =
      .error (.unexpectedToken ";" "option" 3) := by
    simp only [readFile, Grammar.file, Parser.loop_eq]
    rfl
  refine ⟨⟨{ Schema.new .proto3 with options := ⟨[("x", .text "// c")]⟩ }, ?_, rfl⟩, hTokens, ?_⟩
  · unfold parse
    rw [hTokens]
    show (readFile (Token.coalesce _) {} >>= _) = _
    rw [coalesce_of_tokenize hTokens, hRead]
    rfl
  · have hLeft : Token.withoutComments ["option", "x", "=", "// c", ";"] =
        ["option", "x", "=", ";"] := by decide
    show (readFile (Token.coalesce _) {} >>= _) = _
    rw [hLeft, Token.coalesce_eq_self (by decide), hBare]
    rfl

end ProtoIdl
