import ProtoIdl.Proofs.Literal.Grammar
import ProtoIdl.Proofs.Parser.FileLoop

/-!
# Literals that are left open

Where the pieces of a split literal do not end with a closing quote, nothing is joined and the
token that opens it stays among the tokens.  The grammar does not refuse it for that.  It is read
just as the same literal with the quote that is missing: what is read of the one is read of the
other, and what is refused is refused in the same way.
-/

namespace ProtoIdl

/-- The same settings without linking. -/
def Settings.unlinked (settings : Settings) : Settings :=
  { settings with link := false }

/-- A file with open literals is read if it is with them closed, and is refused in the same way,
unless a name is given twice in one of the two. -/
theorem readFile_closed (tokens : List Token) (settings : Settings) :
    (∃ schema other, readFile tokens settings = .ok schema ∧
        readFile (tokens.map Token.closed) settings = .ok other) ∨
      (∃ fault, readFile tokens settings = .error fault ∧
        readFile (tokens.map Token.closed) settings = .error fault.closed) ∨
      ∃ fault, fault.IsDuplicate ∧ (readFile tokens settings = .error fault ∨
        readFile (tokens.map Token.closed) settings = .error fault) := by
  have hStart : Cursor.ofTokens (tokens.map Token.closed) settings.maxDepth =
      (Cursor.ofTokens tokens settings.maxDepth).closed := rfl
  have hFile : ((Grammar.file settings.version).run (.ofTokens tokens settings.maxDepth)).Matches
      Parser.Any ((Grammar.file settings.version).run
        (Cursor.ofTokens tokens settings.maxDepth).closed) := Grammar.matched_file settings.version
  unfold readFile
  rw [hStart]
  generalize (Grammar.file settings.version).run (.ofTokens tokens settings.maxDepth) = reply
    at hFile
  generalize (Grammar.file settings.version).run
    (Cursor.ofTokens tokens settings.maxDepth).closed = other at hFile
  cases hFile with
  | ok _ => exact .inl ⟨_, _, rfl, rfl⟩
  | error hClosed =>
      subst hClosed
      exact .inr (.inl ⟨_, rfl, rfl⟩)
  | duplicate hDuplicate => exact .inr (.inr ⟨_, hDuplicate, .inl rfl⟩)
  | duplicateClosed hDuplicate => exact .inr (.inr ⟨_, hDuplicate, .inr rfl⟩)

/-- What cannot be read cannot be parsed. -/
theorem parseTokens_of_readFile_error {tokens : List Token} {settings : Settings}
    {fault : ParseError} (hRead : readFile (Token.coalesce tokens) settings = .error fault) :
    parseTokens tokens settings = .error fault := by
  unfold parseTokens
  rw [hRead]
  rfl

/-- Tokens with closed literals are read as they are. -/
theorem parseTokens_closed (tokens : List Token) (settings : Settings) :
    parseTokens (tokens.map Token.closed) settings.unlinked =
      readFile (tokens.map Token.closed) settings := by
  have hClosed : ∀ token ∈ tokens.map Token.closed, token.opensQuote = false := by
    intro token hMem
    obtain ⟨original, -, rfl⟩ := List.mem_map.mp hMem
    exact Token.opensQuote_closed original
  rw [parseTokens_of_not_link rfl, Token.coalesce_eq_self hClosed]
  rfl

/-- Whether tokens with a literal left open are parsed is decided by the same tokens with that
literal closed.  Where these are refused, so are the tokens, with the same error; and where these
are read, so are the tokens.  The only exception is a name that is given twice in one of the two. -/
theorem parseTokens_openLiterals (tokens : List Token) (settings : Settings) :
    (∀ fault, parseTokens ((Token.coalesce tokens).map Token.closed) settings.unlinked =
          .error fault → ¬fault.IsDuplicate →
      ∃ found, parseTokens tokens settings = .error found ∧
        (found.closed = fault ∨ found.IsDuplicate)) ∧
    ∀ schema, parseTokens ((Token.coalesce tokens).map Token.closed) settings.unlinked =
          .ok schema →
      (∃ read, parseTokens tokens settings.unlinked = .ok read) ∨
        ∃ found, parseTokens tokens settings = .error found ∧ found.IsDuplicate := by
  have hUnlinked : parseTokens tokens settings.unlinked =
      readFile (Token.coalesce tokens) settings := parseTokens_of_not_link rfl
  rw [parseTokens_closed, hUnlinked]
  rcases readFile_closed (Token.coalesce tokens) settings with
    ⟨schema, other, hOpen, hClosed⟩ | ⟨found, hOpen, hClosed⟩ |
      ⟨found, hDuplicate, hOpen | hClosed⟩
  · refine ⟨fun fault hFault => ?_, fun _ _ => .inl ⟨schema, hOpen⟩⟩
    rw [hClosed] at hFault
    cases hFault
  · refine ⟨fun fault hFault _ => ?_, fun schema hRead => ?_⟩
    · rw [hClosed] at hFault
      cases hFault
      exact ⟨found, parseTokens_of_readFile_error hOpen, .inl rfl⟩
    · rw [hClosed] at hRead
      cases hRead
  · have hParse := parseTokens_of_readFile_error hOpen
    exact ⟨fun _ _ _ => ⟨found, hParse, .inr hDuplicate⟩,
      fun _ _ => .inr ⟨found, hParse, hDuplicate⟩⟩
  · refine ⟨fun fault hFault hOther => ?_, fun schema hRead => ?_⟩
    · rw [hClosed] at hFault
      cases hFault
      exact absurd hDuplicate hOther
    · rw [hClosed] at hRead
      cases hRead

/-- Where a word follows a literal, open or closed, the word is refused. -/
theorem parseTokens_openLiterals_unexpected :
    ∃ found, parseTokens ["option", "x", "=", "\"never", "closed", ";"] {} = .error found ∧
      (found.closed = .unexpectedToken "closed" "option" 4 ∨ found.IsDuplicate) := by
  have hTokens : (Token.coalesce ["option", "x", "=", "\"never", "closed", ";"]).map Token.closed =
      ["option", "x", "=", "\"never\"", "closed", ";"] := by
    rw [Token.coalesce_of_not_closesQuote (by decide)]
    decide
  have hClosed : readFile ["option", "x", "=", "\"never\"", "closed", ";"] {} =
      .error (.unexpectedToken "closed" "option" 4) := by
    simp only [readFile, Grammar.file, Parser.loop_eq]
    rfl
  have hOpen := (parseTokens_openLiterals ["option", "x", "=", "\"never", "closed", ";"] {}).1
  rw [parseTokens_closed, hTokens, hClosed] at hOpen
  refine hOpen _ rfl ?_
  rintro ⟨_, _, hSame⟩
  cases hSame

/-- An open literal that is the value of an option is read as if it were closed. -/
theorem openLiteral_parses :
    Token.coalesce ["option", "x", "=", "\"never", ";"] = ["option", "x", "=", "\"never", ";"] ∧
      Token.opensQuote "\"never" = true ∧
      ∃ schema, parseTokens ["option", "x", "=", "\"never", ";"] {} = .ok schema ∧
        schema.options.get? "x" = some (.text "never") := by
  have hTokens : Token.coalesce ["option", "x", "=", "\"never", ";"] =
      ["option", "x", "=", "\"never", ";"] := Token.coalesce_of_not_closesQuote (by decide)
  let schema : Schema := { Schema.new .proto3 with options := ⟨[("x", .text "never")]⟩ }
  have hRead : readFile ["option", "x", "=", "\"never", ";"] {} = .ok schema :=
    readFile_of_statement rfl rfl rfl
  refine ⟨hTokens, by decide, schema, ?_, rfl⟩
  unfold parseTokens
  rw [hTokens, hRead]
  rfl

end ProtoIdl
