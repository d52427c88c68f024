import ProtoIdl.Parse
import ProtoIdl.Proofs.Parser.MessageLoop
import ProtoIdl.Proofs.Parser.Running
import ProtoIdl.Proofs.Token.Quotes

/-!
# Reading whole files

What the entry points answer, told by the runs of the statements of a file.
-/

namespace ProtoIdl

variable {tokens : List Token} {settings : Settings}

/-- A file is read by the loop over its statements. -/
theorem readFile_eq (tokens : List Token) (settings : Settings) :
    readFile tokens settings =
      match (Parser.loop Parser.statementHead Grammar.statement
          ⟨.new settings.version, false⟩).run (.ofTokens tokens settings.maxDepth) with
      | .ok state _ => .ok state.schema
      | .error fault _ => .error fault := by
  unfold readFile Grammar.file
  rw [Parser.run_bind]
  cases (Parser.loop Parser.statementHead Grammar.statement ⟨.new settings.version, false⟩).run
    (.ofTokens tokens settings.maxDepth) <;> rfl

/-- A file of one statement is what the statement makes of the empty file. -/
theorem readFile_of_statement {head : List String × Token} {between last : Cursor}
    {schema : Schema} {started : Bool}
    (hHead : Parser.statementHead.run (.ofTokens tokens settings.maxDepth) =
      .ok (some head) between)
    (hStatement : (Grammar.statement ⟨.new settings.version, false⟩ head).run between =
      .ok ⟨schema, started⟩ last)
    (hEnd : last.rest = []) : readFile tokens settings = .ok schema := by
  rw [readFile_eq, Parser.run_loop_of_some hHead, Parser.run_bind, hStatement]
  dsimp only
  rw [Grammar.run_statementLoop_nil hEnd]

/-- Without linking, a parse is what is read of the joined tokens. -/
theorem parseTokens_of_not_link (hUnlinked : settings.link = false) :
    parseTokens tokens settings = readFile (Token.coalesce tokens) settings := by
  unfold parseTokens
  cases readFile (Token.coalesce tokens) settings with
  | error fault => rfl
  | ok schema => simp [bind, Except.bind, hUnlinked, pure, Except.pure]

/-- A file that is parsed has been read, and it has been linked if that is asked for. -/
theorem exists_readFile_of_parseTokens {schema : Schema}
    (hParse : parseTokens tokens settings = .ok schema) :
    ∃ unlinked, readFile (Token.coalesce tokens) settings = .ok unlinked ∧
      (settings.link = true ∧ unlinked.link = (schema, none) ∨
        settings.link = false ∧ unlinked = schema) := by
  unfold parseTokens at hParse
  cases hRead : readFile (Token.coalesce tokens) settings with
  | error fault =>
      rw [hRead] at hParse
      cases hParse
  | ok unlinked =>
      rw [hRead] at hParse
      refine ⟨unlinked, rfl, ?_⟩
      cases hLink : settings.link with
      | false =>
          have hSame : unlinked = schema := by
            simpa [bind, Except.bind, hLink, pure, Except.pure] using hParse
          exact .inr ⟨rfl, hSame⟩
      | true =>
          have hLinked : unlinked.linked = .ok schema := by
            simpa [bind, Except.bind, hLink] using hParse
          unfold Schema.linked at hLinked
          split at hLinked
          · next hSame =>
              cases hLinked
              exact .inl ⟨rfl, hSame⟩
          · cases hLinked

/-- A source is parsed by reading its tokens as they are. -/
theorem parse_of_tokenize {source : String} (hTokens : tokenize source = .ok tokens) :
    parse source settings =
      (readFile tokens settings).bind fun schema =>
        if settings.link then schema.linked else .ok schema := by
  unfold parse
  rw [hTokens]
  show parseTokens tokens settings = _
  unfold parseTokens
  rw [coalesce_of_tokenize hTokens]
  rfl

/-! ## Blocks at the top of a file -/

namespace Grammar

/-- Add a block to the top of a file. -/
def addTopBlock (schema : Schema) (kind : BlockKind) (comments : List String) (name : String)
    (inner : Message) : Schema :=
  match kind with
  | .message =>
      { schema with messages := schema.messages ++ [{ inner with comments := comments }] }
  | .extend => { schema with extendBlocks := schema.extendBlocks ++ [⟨name, inner⟩] }

/-- A block at the top of a file is read as one in a message is. -/
theorem declaration_of_block {first : Token} {kind : BlockKind}
    (hKind : BlockKind.ofToken? first = some kind) (schema : Schema) (started : Bool)
    (comments : List String) :
    declaration schema started comments (Keyword.ofToken? first) =
      (block kind (fun name => members (.new name)) >>= fun named =>
        pure (addTopBlock schema kind comments named.1 named.2)) := by
  rw [BlockKind.keyword_of_ofToken? hKind]
  cases kind with
  | message =>
      rw [BlockKind.keyword, declaration, messageRest, bind_assoc]
      rfl
  | extend =>
      rw [BlockKind.keyword, declaration, extendRest, bind_assoc]
      rfl

end Grammar
end ProtoIdl
