import ProtoIdl.Proofs.Depth.Grammar
import ProtoIdl.Proofs.Parser.FileLoop
import ProtoIdl.Proofs.Token.Quotes

/-!
# The depth limit

A lower limit on the depth changes nothing but which files are refused for their depth.
A file that is read under some limit is read as the same schema under every lower limit
that its schema keeps to, and refused a level under every other one.
-/

namespace ProtoIdl

/-- The same settings with another limit. -/
def Settings.withDepth (settings : Settings) (depth : Nat) : Settings :=
  { settings with maxDepth := depth }

variable {tokens : List Token} {settings : Settings} {depth : Nat}

theorem gauges_file (tokens : List Token) (hLower : depth ≤ settings.maxDepth) :
    Reply.Gauges depth 0 0 Schema.nesting
      ((Grammar.file settings.version).run (.ofTokens tokens settings.maxDepth))
      ((Grammar.file settings.version).run (.ofTokens tokens depth)) :=
  Grammar.gauged_file settings.version depth hLower (Nat.zero_le depth)

theorem readFile_of_fails {fault : ParseError}
    (hFails : ((Grammar.file settings.version).run (.ofTokens tokens settings.maxDepth)).Fails
      fault) : readFile tokens settings = .error fault := by
  obtain ⟨after, hRun⟩ := hFails
  rw [readFile, hRun]

theorem readFile_of_ok {schema : Schema} {after : Cursor}
    (hRun : (Grammar.file settings.version).run (.ofTokens tokens settings.maxDepth) =
      .ok schema after) : readFile tokens settings = .ok schema := by
  rw [readFile, hRun]

/-- A file that is refused is refused in the same way, or a level, under a lower limit. -/
theorem readFile_withDepth_of_error {fault : ParseError} (hLower : depth ≤ settings.maxDepth)
    (hRead : readFile tokens settings = .error fault) :
    readFile tokens (settings.withDepth depth) = .error fault ∨
      readFile tokens (settings.withDepth depth) = .error (.tooDeep depth) := by
  have hGauges := gauges_file tokens hLower
  unfold readFile at hRead
  split at hRead
  · cases hRead
  · next hRun =>
      cases hRead
      rw [hRun] at hGauges
      exact hGauges.imp readFile_of_fails readFile_of_fails

/-- A file that is read is read as the same schema under a lower limit, if its schema keeps
to it. -/
theorem readFile_withDepth_of_ok {schema : Schema} (hLower : depth ≤ settings.maxDepth)
    (hRead : readFile tokens settings = .ok schema) :
    readFile tokens (settings.withDepth depth) =
      if schema.nesting ≤ depth then .ok schema else .error (.tooDeep depth) := by
  have hGauges := gauges_file tokens hLower
  unfold readFile at hRead
  split at hRead
  · next hRun =>
      cases hRead
      rw [hRun] at hGauges
      obtain ⟨-, -, hTight⟩ := hGauges
      rw [Nat.zero_add] at hTight
      split at hTight
      · next hWithin =>
          rw [if_pos hWithin]
          exact readFile_of_ok hTight
      · next hBeyond =>
          rw [if_neg hBeyond]
          exact readFile_of_fails hTight
  · cases hRead

/-- The depth limit only gates nesting, and does so exactly.  Under a lower limit a parse
answers the same or is refused a level; a schema is answered under just those lower limits
that are at least its nesting. -/
theorem parseTokens_withDepth (tokens : List Token) (settings : Settings) (depth : Nat)
    (hUnlinked : settings.link = false) (hLower : depth ≤ settings.maxDepth) :
    (parseTokens tokens (settings.withDepth depth) = parseTokens tokens settings ∨
      parseTokens tokens (settings.withDepth depth) = .error (.tooDeep depth)) ∧
    ∀ schema, parseTokens tokens settings = .ok schema →
      (schema.nesting ≤ depth →
        parseTokens tokens (settings.withDepth depth) = .ok schema) ∧
      (depth < schema.nesting →
        parseTokens tokens (settings.withDepth depth) = .error (.tooDeep depth)) := by
  have hUnlinked' : (settings.withDepth depth).link = false := hUnlinked
  rw [parseTokens_of_not_link hUnlinked, parseTokens_of_not_link hUnlinked']
  refine ⟨?_, fun schema hRead => ?_⟩
  · cases hRead : readFile (Token.coalesce tokens) settings with
    | error fault => exact readFile_withDepth_of_error hLower hRead
    | ok schema =>
        rw [readFile_withDepth_of_ok hLower hRead]
        split
        · exact .inl rfl
        · exact .inr rfl
  · rw [readFile_withDepth_of_ok hLower hRead]
    exact ⟨fun hWithin => if_pos hWithin, fun hBeyond => if_neg (Nat.not_le_of_lt hBeyond)⟩

/-- A message takes one level: it is read where one level is open, and refused where none
is. -/
theorem parseTokens_withDepth_message :
    parseTokens ["message", "M", Token.openBrace, Token.closeBrace] ⟨.proto3, 0, false⟩ =
        .error (.tooDeep 0) ∧
      parseTokens ["message", "M", Token.openBrace, Token.closeBrace] ⟨.proto3, 1, false⟩ =
        .ok { Schema.new .proto3 with messages := [.new "M"] } := by
  have hBody := funext fun name => Grammar.members_eq (.new name)
  have hStatement : (Grammar.statement ⟨.new .proto3, false⟩ ([], "message")).run
      ⟨0, ["message"], ["M", Token.openBrace, Token.closeBrace], 0, 2⟩ =
        .ok ⟨{ Schema.new .proto3 with messages := [.new "M"] }, true⟩
          ⟨0, [Token.closeBrace, Token.openBrace, "M", "message"], [], 0, 2⟩ := by
    simp only [Grammar.statement, Grammar.declaration, Grammar.messageRest]
    rw [hBody]
    rfl
  have hParse : parseTokens ["message", "M", Token.openBrace, Token.closeBrace]
      ⟨.proto3, 2, false⟩ = .ok { Schema.new .proto3 with messages := [.new "M"] } := by
    rw [parseTokens_of_not_link rfl, Token.coalesce_eq_self (by decide)]
    exact readFile_of_statement rfl hStatement rfl
  have hLower := parseTokens_withDepth ["message", "M", Token.openBrace, Token.closeBrace]
    ⟨.proto3, 2, false⟩
  exact ⟨((hLower 0 rfl (by decide)).2 _ hParse).2 (by decide),
    ((hLower 1 rfl (by decide)).2 _ hParse).1 (by decide)⟩

end ProtoIdl
