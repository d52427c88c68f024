import ProtoIdl.Proofs.Bracket.Grammar
import ProtoIdl.Proofs.Parser.FileLoop
import ProtoIdl.Proofs.RoundTrip.File

/-!
# Brackets of files

The bodies of messages and of `extend` blocks are cut out by counting braces, and all other
brackets are matched by the parsers of what stands between them.  In every file that is read
the two agree: what the members of a body take is enclosed, so a body that is cut out is a
group of its own, and the brackets of the whole file are a nested word.
-/

namespace ProtoIdl
namespace Grammar

open ProtoIdl.Parser

variable {cursor : Cursor}

/-! ## Messages -/

/-- A block takes a name and, in braces, what its body takes. -/
theorem spans_block (kind : BlockKind) {holds : String → Message → List Token → Prop}
    (hBody : ∀ name (entered : Cursor), entered.left < cursor.left →
      Spans (members (.new name)) (holds name) entered) :
    Spans (block kind fun name => members (.new name))
      (fun named used => Token.isWordLike named.1 = true ∧ ∃ inner,
        used = named.1 :: Token.openBrace :: (inner ++ [Token.closeBrace]) ∧
          holds named.1 named.2 inner)
      cursor := by
  refine .bind (.word _ _) fun name used afterName hName hUsed => ?_
  obtain ⟨rfl, hWord⟩ := hUsed
  refine .bind (.expect _ _) fun _ used start hBrace hUsed => ?_
  subst hUsed
  -- the body is cut out of what is ahead here, so it is shorter than what was ahead before
  have hLe := ((onward_of_ok hName).trans (onward_of_ok hBrace)).left_le
  have hInside : Spans (inside "message" (members (.new name)))
      (fun value used => ∃ inner, used = inner ++ [Token.closeBrace] ∧ holds name value inner)
      start := by
    refine .inside (fun entered hLess => hBody name entered (by omega)) ?_
    exact fun _ _ _ hRun => rest_of_run_members hRun
  refine .bind hInside fun inner used _ _ hUsed => .pure ?_
  obtain ⟨body, rfl, hHolds⟩ := hUsed
  exact ⟨hWord, body, by simp, hHolds⟩

theorem spans_messageMember (message : Message) (head : List String × Token) :
    Spans (messageMember message head) (fun _ used => IsMember head.2 used) cursor := by
  unfold messageMember
  split
  · next hEmpty => exact .pure (.inl ⟨hEmpty, rfl⟩)
  · split
    · next hFirst =>
        exact .returning (.mono spans_enumRest fun _ _ => .of_keyword hFirst)
    · next hFirst =>
        exact .returning (.mono (spans_extensionsRest _) fun _ _ => .of_keyword hFirst)
    · next hFirst =>
        exact .returning (.mono (spans_reservedRest _ _) fun _ _ => .of_keyword hFirst)
    · next hFirst =>
        exact .returning (.mono (spans_oneofRest _) fun _ _ => .of_keyword hFirst)
    · next hFirst =>
        exact .returning (.mono (spans_bindOptionRest _) fun _ _ => .of_keyword hFirst)
    · exact .returning (spans_fieldRest head.1 head.2)

theorem BlockKind.isWordLike_of_ofToken? {token : Token} {kind : BlockKind}
    (hRead : ofToken? token = some kind) : token.isWordLike = true :=
  Keyword.isWordLike_of_ofToken? (keyword_of_ofToken? hRead)

/-- A keyword, a name and a body in braces. -/
theorem enclosed_of_block {keyword name : Token} {kind : BlockKind} {inner : List Token}
    (hKind : BlockKind.ofToken? keyword = some kind) (hName : name.isWordLike = true)
    (hInner : Enclosed inner) :
    Enclosed (keyword :: name :: Token.openBrace :: (inner ++ [Token.closeBrace])) :=
  .plain (Token.isInline_of_isWordLike (BlockKind.isWordLike_of_ofToken? hKind)).1 <|
    .plain (Token.isInline_of_isWordLike hName).1 (.group .brace hInner .nil)

/-- What the members of a body take is enclosed. -/
theorem spans_members (message : Message) :
    Spans (members message) (fun _ used => Enclosed used) cursor := by
  induction hLeft : cursor.left using Nat.strongRecOn generalizing message cursor with
  | ind left ih =>
      rw [members_eq_loop]
      refine spans_statementLoop (fun message head start hStart => ?_) message
      unfold messageStatement
      split
      · exact .mono (spans_messageMember message head) fun _ _ hUsed => hUsed.enclosed
      · next kind hKind =>
          have hBlock := spans_block kind fun name (entered : Cursor) (hLess : _ < start.left) =>
            ih entered.left (by omega) (.new name) rfl
          refine .bind hBlock fun named used _ _ hUsed => .pure ?_
          obtain ⟨hName, inner, rfl, hInner⟩ := hUsed
          rw [List.append_nil]
          exact enclosed_of_block hKind hName hInner

/-! ## Files -/

theorem spans_packageRest : Spans packageRest (fun _ used => Statement used) cursor := by
  refine .word_bind fun name _ hName => ?_
  refine .expect_bind fun _ => .pure ?_
  exact .plain (Token.isInline_of_isWordLike hName) Ending.stop.statement

theorem spans_versionRest : Spans versionRest (fun _ used => Statement used) cursor := by
  refine .expect_bind fun _ => ?_
  refine .next_bind fun literal _ => ?_
  split
  · exact .fail _
  · next version hVersion =>
      have hQuoted : literal.startsQuoted = true := by
        unfold versionOfLiteral? at hVersion
        split at hVersion
        · assumption
        · cases hVersion
      refine .expect_bind fun _ => .pure ?_
      exact .plain (by decide)
        (.plain (Token.isInline_of_startsQuoted hQuoted) Ending.stop.statement)

theorem spans_importModifier : Spans importModifier (fun _ used => Inline used) cursor := by
  refine .eat_bind (fun _ => ?_) fun _ => ?_
  · exact .pure (.plain (by decide) .nil)
  · refine .eat_bind (fun _ => ?_) fun _ => ?_
    · exact .pure (.plain (by decide) .nil)
    · exact .pure .nil

theorem spans_importRest : Spans importRest (fun _ used => Statement used) cursor := by
  refine .bind spans_importModifier fun modifier used _ _ hModifier => ?_
  refine .word_bind fun literal _ hLiteral => ?_
  refine .expect_bind fun _ => .pure ?_
  exact hModifier.statement
    (.plain (Token.isInline_of_isWordLike hLiteral) Ending.stop.statement)

/-- A declaration without a block is a statement. -/
theorem spans_declaration {first : Token} (hKind : BlockKind.ofToken? first = none)
    (schema : Schema) (started : Bool) (comments : List String) :
    Spans (declaration schema started comments (Keyword.ofToken? first))
      (fun _ used => IsMember first used) cursor := by
  have hKeyword : ∀ {keyword : Keyword} {β : Type} {parser : Parser β},
      Keyword.ofToken? first = some keyword → Spans parser (fun _ used => Statement used) cursor →
        Spans parser (fun _ used => IsMember first used) cursor :=
    fun hFirst hSpans => .mono hSpans fun _ _ hUsed => .of_keyword hFirst hUsed
  unfold BlockKind.ofToken? at hKind
  unfold declaration
  split
  · next hFirst => exact .returning (hKeyword hFirst spans_packageRest)
  · next hFirst =>
      split
      · exact .fail _
      · exact .returning (hKeyword hFirst spans_versionRest)
  · next hFirst => rw [hFirst] at hKind; cases hKind
  · next hFirst => exact .returning (hKeyword hFirst spans_enumRest)
  · next hFirst => exact .returning (hKeyword hFirst (spans_bindOptionRest _))
  · next hFirst => exact .returning (hKeyword hFirst spans_importRest)
  · next hFirst => rw [hFirst] at hKind; cases hKind
  · next hFirst => exact .returning (hKeyword hFirst spans_serviceRest)
  · exact .rejectLast _

theorem spans_statement (state : FileState) (head : List String × Token) :
    Spans (statement state head) (fun _ used => Enclosed (head.2 :: used)) cursor := by
  unfold statement
  split
  · next hEmpty => exact .pure (hEmpty ▸ .plain (by decide) .nil)
  · refine .returning ?_
    cases hKind : BlockKind.ofToken? head.2 with
    | none => exact .mono (spans_declaration hKind _ _ _) fun _ _ hUsed => hUsed.enclosed
    | some kind =>
        rw [declaration_of_block hKind]
        refine .returning (.mono (spans_block kind fun name _ _ => spans_members (.new name)) ?_)
        rintro named used ⟨hName, inner, rfl, hInner⟩
        exact enclosed_of_block hKind hName hInner

end Grammar

variable {tokens : List Token} {settings : Settings} {schema : Schema}

/-- The statements of a file that is read take all its tokens. -/
theorem exists_state_of_readFile {holds : Grammar.FileState → List Token → Prop}
    (hStatements : Parser.Spans (Parser.loop Parser.statementHead Grammar.statement
      ⟨.new settings.version, false⟩) holds (.ofTokens tokens settings.maxDepth))
    (hRead : readFile tokens settings = .ok schema) :
    ∃ state, state.schema = schema ∧ holds state tokens := by
  rw [readFile_eq] at hRead
  split at hRead
  · next state last hRun =>
      cases hRead
      obtain ⟨used, hUsed, hHolds⟩ := hStatements state last hRun
      rw [Grammar.rest_of_run_statementLoop hRun, List.append_nil] at hUsed
      have hTokens : tokens = used := hUsed
      exact ⟨state, rfl, hTokens ▸ hHolds⟩
  · cases hRead

/-- Whatever the default revision and the limit of nesting are, the brackets of the tokens of
a file that is read are a nested word. -/
theorem nested_of_readFile (hRead : readFile tokens settings = .ok schema) :
    Nested (tokens.filter Token.isBracket) := by
  obtain ⟨_, -, hEnclosed⟩ := exists_state_of_readFile
    (Parser.spans_statementLoop (fun state head _ _ => Grammar.spans_statement state head) _) hRead
  exact hEnclosed.nested_filter

/-- A message with a map and a field option, and a service with a method: all four kinds of
brackets. -/
theorem nested_of_readFile_kinds :
    ∃ tokens schema, readFile tokens {} = .ok schema ∧
      tokens.filter Token.isBracket =
        [Token.openBrace, "<", ">", "[", "]", Token.closeBrace,
          Token.openBrace, "(", ")", "(", ")", Token.closeBrace] ∧
      Nested (tokens.filter Token.isBracket) := by
  let notes : Field :=
    ⟨"notes", .map "string" "string", 1, false, false, none, ⟨[("lazy", .bool true)]⟩, []⟩
  let shelf : Message := { Message.new "Shelf" with fields := [notes] }
  let lend : RpcMethod :=
    ⟨"Lend", [⟨some "book", .named "Book", false⟩], ⟨none, .named "Shelf", false⟩, false, false,
      ∅, []⟩
  let desk : Service := ⟨"Desk", [lend], ∅, []⟩
  have hStatements : Grammar.FileReads 64
      { Schema.new .proto3 with messages := [shelf], services := [desk] } (.new .proto3)
      (shelf.tokens ++ (desk.tokens ++ [])) := by
    apply Grammar.fileReads_message (by decide) (by decide)
    apply Grammar.fileReads_service (by decide) (by decide) Parser.noSemicolonFirst_nil
    exact Parser.reads_loop_done reads_statementHead_done
  have hRead : readFile _ {} = .ok _ := Grammar.readFile_of_fileReads hStatements
  exact ⟨_, _, hRead, by decide, nested_of_readFile hRead⟩

end ProtoIdl
