import ProtoIdl.Proofs.Depth.Grammar
import ProtoIdl.Proofs.Local.Statement
import ProtoIdl.Proofs.Parser.FileLoop
import ProtoIdl.Proofs.Parser.Yields
import ProtoIdl.Proofs.Trace.Alike
import ProtoIdl.Proofs.Trace.Grammar

/-!
# Files one after the other

What is read from the tokens of two files, one after the other, is the schema of the first
file followed by that of the second.  There are two exceptions: a revision cannot be declared
by the second file, and an option cannot be set by both.
-/

namespace ProtoIdl

/-- The token is skipped neither as a comment nor as an empty statement. -/
def Token.opensStatement (token : Token) : Bool :=
  !token.isComment && token != ";"

/-- The bindings of one map followed by those of another. -/
def OptionMap.followedBy (first second : OptionMap) : OptionMap :=
  ⟨first.entries ++ second.entries⟩

/-- The declarations of one schema followed by those of another.  The revision and the
comments are those of the first, and the last package that is named counts. -/
def Schema.followedBy (first second : Schema) : Schema where
  version := first.version
  package := second.package.or first.package
  imports := first.imports ++ second.imports
  messages := first.messages ++ second.messages
  enums := first.enums ++ second.enums
  services := first.services ++ second.services
  extendBlocks := first.extendBlocks ++ second.extendBlocks
  options := first.options.followedBy second.options
  comments := first.comments

/-! ## Options -/

namespace OptionMap

variable {options grown : OptionMap} {key : String} {value : OptionValue}

theorem followedBy_empty (options : OptionMap) : options.followedBy ∅ = options := by
  cases options
  exact congrArg mk (List.append_nil _)

theorem contains_followedBy (before options : OptionMap) (key : String) :
    (before.followedBy options).contains key = (before.contains key || options.contains key) := by
  simp [contains, get?, followedBy, List.lookup_append]

/-- A binding that one map takes is taken after another map too, if that has no such key. -/
theorem bind_followedBy (before : OptionMap) (hBind : options.bind key value = .ok grown) :
    (before.followedBy options).bind key value =
      if before.contains key then .error (.duplicate .option key)
      else .ok (before.followedBy grown) := by
  have hNew := contains_eq_false (not_mem_keys_of_bind hBind)
  rw [eq_append_of_bind hBind, bind, contains_followedBy, hNew, Bool.or_false]
  simp [append, followedBy]

/-- Keys that are all new to a map have no first one that the map has. -/
theorem find?_contains_eq_none {before : OptionMap} {keys : List String}
    (hKeys : ∀ key ∈ keys, before.contains key = false) : keys.find? before.contains = none :=
  List.find?_eq_none.mpr fun key hMem => by simp [hKeys key hMem]

end OptionMap

/-- An empty schema that follows adds nothing. -/
theorem Schema.followedBy_new (schema : Schema) (version : LanguageVersion) :
    schema.followedBy (.new version) = schema := by
  cases schema
  simp only [followedBy, new, OptionMap.followedBy_empty, List.append_nil, Option.none_or]

/-! ## One statement -/

namespace Grammar

open ProtoIdl.Parser

/-- How a statement that is read into `grown` from `schema` is read from the declarations of
`before` followed by `schema`: into `before` followed by `grown`, or into an error if it sets
an option that `before` has. -/
def Joins (before schema grown : Schema) (after : Cursor) (reply : Reply Schema) : Prop :=
  (∃ last, reply = .ok (before.followedBy grown) last ∧ after.Alike last ∧
      ∀ key ∈ grown.options.keys, key ∈ schema.options.keys ∨ before.options.contains key = false) ∨
    ∃ key, grown.options.keys = schema.options.keys ++ [key] ∧
      before.options.contains key = true ∧ reply.Fails (.duplicate .option key)

variable {cursor other after : Cursor} {before schema grown : Schema}

/-- A statement that sets no option adds the same to either schema. -/
theorem joins_of_rest (build : Schema → α → Schema) {rest : Parser α}
    (hTraced : rest.Traced cursor) (hAlike : cursor.Alike other)
    (hBuild : ∀ value, build (before.followedBy schema) value =
      before.followedBy (build schema value))
    (hOptions : ∀ value, (build schema value).options = schema.options)
    (hRun : (rest >>= fun value => pure (build schema value)).run cursor = .ok grown after) :
    Joins before schema grown after
      ((rest >>= fun value => pure (build (before.followedBy schema) value)).run other) := by
  obtain ⟨value, between, hRest, hPure⟩ := run_bind_eq_ok_iff.mp hRun
  cases hPure
  obtain ⟨last, hOther, hLast⟩ := hTraced.answersAlike hAlike value _ hRest
  refine .inl ⟨last, ?_, hLast, ?_⟩
  · rw [run_bind, hOther, ← hBuild]
    rfl
  · rw [hOptions]
    exact fun key hKey => .inl hKey

/-- An option is set after those of another schema, unless that one has set it. -/
theorem joins_option (hAlike : cursor.Alike other)
    (hRun : (bindOptionRest schema.options >>= fun options =>
      pure { schema with options := options }).run cursor = .ok grown after) :
    Joins before schema grown after
      ((bindOptionRest (before.followedBy schema).options >>= fun options =>
        pure { before.followedBy schema with options := options }).run other) := by
  obtain ⟨options, between, hBind, hPure⟩ := run_bind_eq_ok_iff.mp hRun
  cases hPure
  obtain ⟨binding, middle, hRest, hStore⟩ := run_bind_eq_ok_iff.mp hBind
  obtain ⟨hBound, rfl⟩ := eq_of_run_ofExcept hStore
  obtain ⟨last, hOther, hLast⟩ := traced_optionRest.answersAlike hAlike binding _ hRest
  have hJoined := OptionMap.bind_followedBy before.options hBound
  have hKeys : options.keys = schema.options.keys ++ [binding.1] := by
    rw [OptionMap.eq_append_of_bind hBound, OptionMap.keys_append]
  have hOptions : (before.followedBy schema).options =
      before.options.followedBy schema.options := rfl
  rw [hOptions, bindOptionRest, bind_assoc, run_bind, hOther]
  dsimp only
  rw [hJoined]
  cases hContains : before.options.contains binding.1 with
  | true => exact .inr ⟨binding.1, hKeys, hContains, _, rfl⟩
  | false =>
      refine .inl ⟨last, rfl, hLast, fun key hKey => ?_⟩
      rw [hKeys] at hKey
      rcases List.mem_append.mp hKey with hOld | hNew
      · exact .inl hOld
      · rw [List.mem_singleton.mp hNew]
        exact .inr hContains

theorem joins_declaration {started : Bool} {comments : List String} {keyword : Option Keyword}
    (hVersion : keyword ≠ some .syntaxVersion) (hAlike : cursor.Alike other)
    (hRun : (declaration schema started comments keyword).run cursor = .ok grown after) :
    Joins before schema grown after
      ((declaration (before.followedBy schema) true comments keyword).run other) := by
  unfold declaration at hRun ⊢
  split at hRun
  · exact joins_of_rest (fun schema name => { schema with package := some name })
      traced_packageRest hAlike (fun _ => rfl) (fun _ => rfl) hRun
  · exact absurd rfl hVersion
  · refine joins_of_rest (fun schema decl =>
      { schema with messages := schema.messages ++ [{ decl with comments := comments }] })
      traced_messageRest hAlike (fun _ => ?_) (fun _ => rfl) hRun
    simp only [Schema.followedBy, List.append_assoc]
  · refine joins_of_rest (fun schema decl =>
      { schema with enums := schema.enums ++ [{ decl with comments := comments }] })
      traced_enumRest hAlike (fun _ => ?_) (fun _ => rfl) hRun
    simp only [Schema.followedBy, List.append_assoc]
  · exact joins_option hAlike hRun
  · refine joins_of_rest (fun schema entry => { schema with imports := schema.imports ++ [entry] })
      traced_importRest hAlike (fun _ => ?_) (fun _ => rfl) hRun
    simp only [Schema.followedBy, List.append_assoc]
  · refine joins_of_rest (fun schema block =>
      { schema with extendBlocks := schema.extendBlocks ++ [block] })
      traced_extendRest hAlike (fun _ => ?_) (fun _ => rfl) hRun
    simp only [Schema.followedBy, List.append_assoc]
  · refine joins_of_rest (fun schema decl =>
      { schema with services := schema.services ++ [{ decl with comments := comments }] })
      traced_serviceRest hAlike (fun _ => ?_) (fun _ => rfl) hRun
    simp only [Schema.followedBy, List.append_assoc]
  · cases hRun

/-- A statement that is not empty is a declaration. -/
theorem statement_eq {state : FileState} {head : List String × Token} (hOther : head.2 ≠ ";") :
    statement state head =
      (declaration (if state.started then state.schema
          else { state.schema with comments := head.1 })
        state.started head.1 (Keyword.ofToken? head.2) >>= fun grown => pure ⟨grown, true⟩) :=
  if_neg hOther

theorem joins_statement {state grown : FileState} {head : List String × Token}
    (hOther : head.2 ≠ ";") (hVersion : state.started = false → head.2 ≠ "syntax")
    (hAlike : cursor.Alike other) (hRun : (statement state head).run cursor = .ok grown after) :
    grown.started = true ∧ Joins before state.schema grown.schema after
      ((declaration (before.followedBy state.schema) true head.1
        (Keyword.ofToken? head.2)).run other) := by
  rw [statement_eq hOther] at hRun
  obtain ⟨schema, between, hDeclaration, hPure⟩ := run_bind_eq_ok_iff.mp hRun
  cases hPure
  refine ⟨rfl, ?_⟩
  cases hStarted : state.started with
  | true =>
      simp only [hStarted, if_true] at hDeclaration
      refine joins_declaration (fun hKeyword => ?_) hAlike hDeclaration
      rw [hKeyword] at hDeclaration
      cases hDeclaration
  | false =>
      rw [hStarted] at hDeclaration
      -- the comments of the file that comes first stay
      show Joins before { state.schema with comments := head.1 } schema after _
      refine joins_declaration (fun hKeyword => ?_) hAlike hDeclaration
      exact hVersion hStarted (Keyword.text_of_ofToken? hKeyword).symm

/-! ## All statements -/

/-- The options of a file only grow. -/
theorem yields_declaration_keys (schema : Schema) (started : Bool) (comments : List String)
    (keyword : Option Keyword) :
    Yields (declaration schema started comments keyword)
      (fun grown => schema.options.keys <+: grown.options.keys) cursor := by
  unfold declaration
  split
  · exact .after fun name _ _ => .pure (List.prefix_refl _)
  · split
    · exact .fail _
    · exact .after fun version _ _ => .pure (List.prefix_refl _)
  · exact .after fun decl _ _ => .pure (List.prefix_refl _)
  · exact .after fun decl _ _ => .pure (List.prefix_refl _)
  · have hOptions : Yields (bindOptionRest schema.options)
        (fun options => schema.options.keys <+: options.keys) cursor := by
      refine .after fun binding _ _ => .ofExcept fun options hBind => ?_
      rw [OptionMap.eq_append_of_bind hBind, OptionMap.keys_append]
      exact List.prefix_append _ _
    exact hOptions.bind fun options _ _ hKeys => .pure hKeys
  · exact .after fun entry _ _ => .pure (List.prefix_refl _)
  · exact .after fun block _ _ => .pure (List.prefix_refl _)
  · exact .after fun service _ _ => .pure (List.prefix_refl _)
  · exact .rejectLast _

theorem yields_statement_keys (state : FileState) (head : List String × Token) :
    Yields (statement state head)
      (fun grown => state.schema.options.keys <+: grown.schema.options.keys) cursor := by
  unfold statement
  split
  · exact .pure (List.prefix_refl _)
  · refine .bind (yields_declaration_keys _ _ _ _) fun grown _ _ hKeys => .pure ?_
    split at hKeys <;> exact hKeys

theorem yields_statements_keys (state : FileState) :
    Yields (loop statementHead statement state)
      (fun final => state.schema.options.keys <+: final.schema.options.keys) cursor :=
  .loop (fun state head _ _ hKeys grown after hRun =>
    hKeys.trans (yields_statement_keys state head grown after hRun)) (List.prefix_refl _)

/-- After its first statement a file has started. -/
theorem yields_statements_started {state : FileState} (hStarted : state.started = true) :
    Yields (loop statementHead statement state) (fun final => final.started = true) cursor := by
  refine .loop (fun state head _ _ hStarted => ?_) hStarted
  unfold statement
  split
  · exact .pure hStarted
  · exact .after fun grown _ _ => .pure rfl

/-- The first token that opens a statement, past the comments before a token. -/
theorem find?_opensStatement {comments rest : List Token} {token : Token}
    (hComments : ∀ comment ∈ comments, comment.isComment = true)
    (hToken : token.isComment = false) :
    (comments ++ token :: rest).find? Token.opensStatement =
      if token = ";" then rest.find? Token.opensStatement else some token := by
  have hNone : comments.find? Token.opensStatement = none := by
    refine List.find?_eq_none.mpr fun comment hMem => ?_
    simp [Token.opensStatement, hComments comment hMem]
  rw [List.find?_append, hNone, Option.none_or, List.find?_cons]
  by_cases hSemicolon : token = ";"
  · simp [Token.opensStatement, hSemicolon]
  · have hOther : (token != ";") = true := by simpa using hSemicolon
    simp [Token.opensStatement, hToken, hSemicolon, hOther]

/-- Where only comments are left, no statement is opened. -/
theorem find?_opensStatement_none {cursor between : Cursor}
    (hHead : statementHead.run cursor = .ok none between) :
    cursor.rest.find? Token.opensStatement = none := by
  obtain ⟨_, hComments⟩ := comments_of_run_statementHead hHead
  refine List.find?_eq_none.mpr fun token hMem => ?_
  simp [Token.opensStatement, hComments token hMem]

/-- The first token that opens a statement is that of the head, or it comes later. -/
theorem find?_opensStatement_head {cursor between : Cursor} {head : List String × Token}
    (hHead : statementHead.run cursor = .ok (some head) between) :
    cursor.rest.find? Token.opensStatement =
      if head.2 = ";" then between.rest.find? Token.opensStatement else some head.2 := by
  obtain ⟨hToken, comments, hComments, hRest⟩ := exists_of_run_statementHead hHead
  rw [hRest, find?_opensStatement hComments hToken]

/-- A file with a token that opens a statement has started when it has been read. -/
theorem started_of_run_statements {state final : FileState} {cursor last : Cursor}
    (hOpens : cursor.rest.find? Token.opensStatement ≠ none)
    (hRun : (loop statementHead statement state).run cursor = .ok final last) :
    final.started = true := by
  induction cursor using statements_induction generalizing state with
  | done cursor between hHead => exact absurd (find?_opensStatement_none hHead) hOpens
  | statement cursor between head hHead ih =>
      rw [find?_opensStatement_head hHead] at hOpens
      rw [run_loop_of_some hHead] at hRun
      obtain ⟨grown, after, hStatement, hLater⟩ := run_bind_eq_ok_iff.mp hRun
      unfold statement at hStatement
      split at hStatement
      · next hSemicolon =>
          -- an empty statement starts nothing, but then a token after it does
          cases hStatement
          rw [if_pos hSemicolon] at hOpens
          exact ih between (.refl between) hOpens hLater
      · obtain ⟨schema, middle, _, hPure⟩ := run_bind_eq_ok_iff.mp hStatement
        cases hPure
        exact yields_statements_started rfl final last hLater

/-- A revision that is declared where a file has started is refused. -/
theorem fails_statements_version {state : FileState} {cursor : Cursor}
    (hStarted : state.started = true)
    (hVersion : cursor.rest.find? Token.opensStatement = some "syntax") :
    ((loop statementHead statement state).run cursor).Fails .versionNotFirst := by
  induction cursor using statements_induction with
  | done cursor between hHead =>
      rw [find?_opensStatement_none hHead] at hVersion
      cases hVersion
  | statement cursor between head hHead ih =>
      rw [find?_opensStatement_head hHead] at hVersion
      rw [run_loop_of_some hHead]
      split at hVersion
      · next hSemicolon =>
          have hSkipped : statement state head = pure state := if_pos hSemicolon
          rw [hSkipped, pure_bind]
          exact ih between (.refl between) hVersion
      · next hOther =>
          have hSyntax : head.2 = "syntax" := Option.some.inj hVersion
          have hKeyword : Keyword.ofToken? head.2 = some .syntaxVersion := by
            rw [hSyntax]
            exact Keyword.ofToken?_text .syntaxVersion
          refine fails_bind ⟨between, ?_⟩ _
          rw [statement, if_neg hOther, hKeyword]
          simp only [hStarted]
          rfl

/-- The statements of a file, read after the declarations of another: they come to the same
declarations after those, or to an error at the first option that the other file has. -/
theorem run_statements_followedBy (before : Schema) {state final : FileState}
    {cursor other last : Cursor} (hAlike : cursor.Alike other)
    (hKeys : ∀ key ∈ state.schema.options.keys, before.options.contains key = false)
    (hVersion : state.started = false →
      cursor.rest.find? Token.opensStatement ≠ some "syntax")
    (hRun : (loop statementHead statement state).run cursor = .ok final last) :
    match final.schema.options.keys.find? before.options.contains with
    | some key =>
        ((loop statementHead statement ⟨before.followedBy state.schema, true⟩).run other).Fails
          (.duplicate .option key)
    | none => ∃ stop,
        (loop statementHead statement ⟨before.followedBy state.schema, true⟩).run other =
          .ok ⟨before.followedBy final.schema, true⟩ stop := by
  induction cursor using statements_induction generalizing state other with
  | done cursor between hHead =>
      obtain ⟨start, hOther, _⟩ := Traced.statementHead.answersAlike hAlike _ _ hHead
      rw [run_loop_of_none hHead] at hRun
      cases hRun
      rw [OptionMap.find?_contains_eq_none hKeys]
      exact ⟨start, run_loop_of_none hOther _⟩
  | statement cursor between head hHead ih =>
      obtain ⟨start, hOther, hStart⟩ := Traced.statementHead.answersAlike hAlike _ _ hHead
      rw [find?_opensStatement_head hHead] at hVersion
      rw [run_loop_of_some hHead] at hRun
      rw [run_loop_of_some hOther]
      by_cases hSemicolon : head.2 = ";"
      · have hSkipped : ∀ state, statement state head = pure state :=
          fun _ => if_pos hSemicolon
        rw [hSkipped, pure_bind] at hRun ⊢
        rw [if_pos hSemicolon] at hVersion
        exact ih between (.refl between) hStart hKeys hVersion hRun
      · rw [if_neg hSemicolon] at hVersion
        obtain ⟨grown, after, hStatement, hLater⟩ := run_bind_eq_ok_iff.mp hRun
        obtain ⟨hStarted, hJoins⟩ := joins_statement hSemicolon
          (fun hFresh hSyntax => hVersion hFresh (congrArg some hSyntax)) hStart hStatement
        rw [statement_eq hSemicolon, bind_assoc]
        rcases hJoins with ⟨middle, hNext, hAfter, hNew⟩ | ⟨key, hGrown, hClash, hFails⟩
        · -- the same declaration is added, and the others follow
          rw [run_bind, if_pos rfl, hNext]
          refine ih after (onward_of_ok hStatement) hAfter (fun key hMem => ?_) ?_ hLater
          · exact (hNew key hMem).elim (hKeys key) id
          · exact fun hFresh => absurd (hStarted.symm.trans hFresh) nofun
        · -- the option that is set is the first that the other file has
          obtain ⟨further, hFurther⟩ := yields_statements_keys grown final last hLater
          have hFind : final.schema.options.keys.find? before.options.contains = some key := by
            rw [← hFurther, hGrown, List.append_assoc, List.find?_append,
              OptionMap.find?_contains_eq_none hKeys]
            simp [hClash]
          rw [hFind]
          exact fails_bind hFails _

end Grammar

/-! ## Whole files -/

/-- Two files that can be read, one after the other.  The revision of the second must not be
declared, no option may be set by both, and then the declarations follow each other. -/
theorem readFile_append {first second : List Token} {settings : Settings} {one two : Schema}
    (hFirst : readFile first settings = .ok one) (hSecond : readFile second settings = .ok two)
    (hOpens : ∃ token ∈ first, token.opensStatement = true)
    (hLast : ∀ token, first.getLast? = some token → token.isComment = false) :
    readFile (first ++ second) settings =
      if second.find? Token.opensStatement = some "syntax" then .error .versionNotFirst
      else
        match two.options.keys.find? one.options.contains with
        | some key => .error (.duplicate .option key)
        | none => .ok (one.followedBy two) := by
  rw [readFile_eq] at hFirst hSecond ⊢
  split at hFirst
  · next state last hRunFirst =>
      cases hFirst
      -- the second file goes on where the first has stopped
      have hDone : last.rest = [] := Grammar.rest_of_run_statementLoop hRunFirst
      have hStarted : state.started = true :=
        Grammar.started_of_run_statements (by simpa [Cursor.ofTokens] using hOpens) hRunFirst
      obtain ⟨one, started⟩ := state
      subst hStarted
      have hExtended : Cursor.ofTokens (first ++ second) settings.maxDepth =
          (Cursor.ofTokens first settings.maxDepth).extended second := rfl
      rw [hExtended, Grammar.run_statements_extended hRunFirst hLast]
      have hRest : (last.extended second).rest = second := by simp [hDone]
      by_cases hVersion : second.find? Token.opensStatement = some "syntax"
      · have hFails : ((Parser.loop Parser.statementHead Grammar.statement ⟨one, true⟩).run
            (last.extended second)).Fails .versionNotFirst :=
          Grammar.fails_statements_version rfl (by rw [hRest, hVersion])
        obtain ⟨_, hRun⟩ := hFails
        rw [if_pos hVersion, hRun]
      · rw [if_neg hVersion]
        split at hSecond
        · next final stop hRunSecond =>
            cases hSecond
            have hDepth := ((Grammar.gauged_statements settings.version).of_ok
              (by simp [Cursor.ofTokens]) hRunFirst).1
            have hLimit := (Parser.onward_of_ok hRunFirst).limit_eq
            have hAlike : (Cursor.ofTokens second settings.maxDepth).Alike (last.extended second) :=
              ⟨hRest, hDepth, hLimit⟩
            have hJoined := Grammar.run_statements_followedBy one hAlike (by rintro _ ⟨⟩)
              (fun _ => hVersion) hRunSecond
            rw [one.followedBy_new] at hJoined
            cases hClash : final.schema.options.keys.find? one.options.contains with
            | some key =>
                rw [hClash] at hJoined
                obtain ⟨_, hFails⟩ := hJoined
                rw [hFails]
            | none =>
                rw [hClash] at hJoined
                obtain ⟨_, hRead⟩ := hJoined
                rw [hRead]
        · cases hSecond
  · cases hFirst

/-- An import and, after it, an option. -/
theorem readFile_append_import :
    readFile (["import", "\"a\"", ";"] ++ ["option", "x", "=", "y", ";"]) {} =
      .ok { Schema.new .proto3 with
        imports := [⟨"a", none⟩], options := ⟨[("x", .text "y")]⟩ } := by
  have hFirst : readFile ["import", "\"a\"", ";"] {} =
      .ok { Schema.new .proto3 with imports := [⟨"a", none⟩] } :=
    readFile_of_statement rfl rfl rfl
  have hSecond : readFile ["option", "x", "=", "y", ";"] {} =
      .ok { Schema.new .proto3 with options := ⟨[("x", .text "y")]⟩ } :=
    readFile_of_statement rfl rfl rfl
  have hBoth := readFile_append hFirst hSecond ⟨"import", by decide, by decide⟩ (by decide)
  rwa [if_neg (by decide)] at hBoth

end ProtoIdl
