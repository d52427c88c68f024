import Mathlib.Data.List.Permutation
import ProtoIdl.Proofs.Parser.FileLoop
import ProtoIdl.Proofs.RoundTrip.Enum
import ProtoIdl.Proofs.Token.Quotes

/-!
# What string literals stand for

A string literal is read for the text that is left without the quotes at its two ends, wherever
it stands for a value or a reserved name.  All quotes at the ends are taken away, of both kinds,
so what stands between the two quotes of a literal is kept just if it has no quote at its own
ends.
-/

namespace ProtoIdl

/-- A text with no quote, of either kind, at its two ends. -/
def BareEnds (text : List Char) : Prop :=
  (∀ c, text.head? = some c → Token.isQuote c = false) ∧
    ∀ c, text.getLast? = some c → Token.isQuote c = false

/-- The literal is read for the text, as the value of an option, as a value in an option map and
as a reserved name. -/
structure StandsFor (literal : Token) (text : String) : Prop where
  option : ∀ (options : OptionMap) (name : String) (later : List Token), IsWord name →
    name ∉ options.keys → Grammar.admitsValue name (.text text) = true →
      (Grammar.bindOptionRest options).Reads 0 (name :: "=" :: literal :: ";" :: later)
        (options.append name (.text text)) later
  entry : ∀ (options final : OptionMap) (key : String) (levels : Nat) (rest later : List Token),
    IsWord key → key ∉ options.keys →
      (Grammar.entries (options.append key (.text text))).Reads levels rest final later →
        (Grammar.entries options).Reads levels (key :: ":" :: literal :: rest) final later
  reserved : ∀ (max : Int) (reserved : List Reserved) (later : List Token),
    (Grammar.reservedRest max reserved).Reads 0 (literal :: ";" :: later)
      (reserved ++ [.name text]) later

namespace StandsFor

/-- A literal stands for one text only. -/
theorem unique {literal : Token} {first second : String} (hFirst : StandsFor literal first)
    (hSecond : StandsFor literal second) : first = second := by
  let cursor : Cursor := .ofTokens [literal, ";"] 0
  obtain ⟨_, hRun, -⟩ := hFirst.reserved 0 [] [] cursor rfl (Nat.le_refl 0)
  obtain ⟨_, hRun', -⟩ := hSecond.reserved 0 [] [] cursor rfl (Nat.le_refl 0)
  rw [hRun] at hRun'
  cases hRun'
  rfl

end StandsFor

/-! ## Literals of the scanner -/

section Literals

variable {quote : Char} {body : List Char}

theorem startsQuoted_literal (hQuote : Token.isQuote quote = true) :
    (Lexeme.literal quote body).token.startsQuoted = true := by
  rw [Token.startsQuoted, Lexeme.toList_literal]
  exact hQuote

/-- A literal can stand as a word. -/
theorem isWord_literal (hQuote : Token.isQuote quote = true) :
    IsWord (Lexeme.literal quote body).token :=
  Token.isWordLike_of_startsQuoted (startsQuoted_literal hQuote)

theorem unquote_literal (hQuote : Token.isQuote quote = true) :
    (Lexeme.literal quote body).token.unquote =
      String.ofList (Text.trimWith Token.isQuote body) := by
  rw [Token.unquote, Lexeme.toList_literal, Text.trimWith_enclosed hQuote]

theorem ofLiteral_literal (hQuote : Token.isQuote quote = true) :
    OptionValue.ofLiteral (Lexeme.literal quote body).token =
      .text (Lexeme.literal quote body).token.unquote :=
  Token.ofLiteral_of_startsQuoted (startsQuoted_literal hQuote)

/-- A literal stands for what is left without the quotes at its ends. -/
theorem standsFor_literal (hQuote : Token.isQuote quote = true) :
    StandsFor (Lexeme.literal quote body).token (Lexeme.literal quote body).token.unquote where
  option options name later hName hNew hAdmitted := by
    have hBinding : (Grammar.optionBinding "option").Reads 0
        (name :: "=" :: (Lexeme.literal quote body).token :: ";" :: later)
        (name, .text (Lexeme.literal quote body).token.unquote) (";" :: later) := by
      refine .bind (Grammar.reads_optionName hName _) ?_
      refine .bind (Parser.reads_expect "=" _) ?_
      refine .bind (Grammar.reads_optionValue_literal (isWord_literal hQuote)
        (ofLiteral_literal hQuote) hAdmitted _) ?_
      exact .pure _
    exact .bind (.bind hBinding (.bind (Parser.reads_expect ";" _) (.pure _)))
      (.ofExcept (OptionMap.bind_of_not_mem hNew))
  entry options final key levels rest later hKey hNew hRest := by
    apply Grammar.reads_entries_literal hKey hNew (isWord_literal hQuote)
    rwa [ofLiteral_literal hQuote]
  reserved max reserved later := by
    have hEntry : (Grammar.reservedEntry max).Reads 0
        ((Lexeme.literal quote body).token :: ";" :: later)
        (.name (Lexeme.literal quote body).token.unquote) (";" :: later) := by
      refine .bind (Parser.reads_next _ _ _) ?_
      rw [if_pos (startsQuoted_literal hQuote)]
      exact .pure _
    exact .bind (.bind hEntry (.pure _))
      (Parser.reads_loop_done (reads_commaHead_done (by decide) _))

/-- What stands between the quotes is kept just if it has no quotes at its ends. -/
theorem unquote_literal_eq_iff (hQuote : Token.isQuote quote = true) :
    (Lexeme.literal quote body).token.unquote = String.ofList body ↔ BareEnds body := by
  rw [unquote_literal hQuote, String.ofList_inj]
  exact Text.trimWith_eq_self_iff

end Literals

/-- Every string literal of a source stands for a text.  It is what stands between its two
quotes exactly if that has no quote at its ends, and then no other such literal with the same
quotes stands for it. -/
theorem literal_content {source : String} {tokens : List Token} {literal : Token}
    (hTokens : tokenize source = .ok tokens) (hMem : literal ∈ tokens)
    (hQuoted : literal.startsQuoted = true) :
    ∃ quote body text, literal = (Lexeme.literal quote body).token ∧
      Token.isQuote quote = true ∧ IsQuoted quote body ∧ StandsFor literal text ∧
      (text = String.ofList body ↔ BareEnds body) ∧
      ∀ other, BareEnds body → BareEnds other →
        StandsFor (Lexeme.literal quote other).token text → other = body := by
  obtain ⟨quote, body, rfl, hQuote, hBody⟩ :=
    Scanner.exists_literal_of_mem_tokens hTokens hMem hQuoted
  refine ⟨quote, body, (Lexeme.literal quote body).token.unquote, rfl, hQuote, hBody,
    standsFor_literal hQuote, unquote_literal_eq_iff hQuote, fun other hBare hOther hSame => ?_⟩
  have hText := hSame.unique (standsFor_literal hQuote)
  rw [(unquote_literal_eq_iff hQuote).mpr hBare, (unquote_literal_eq_iff hQuote).mpr hOther,
    String.ofList_inj] at hText
  exact hText.symm

/-- Quotes of both kinds are kept in the middle of a literal. -/
theorem literal_content_inner : StandsFor "\"a\\\"'b\"" "a\\\"'b" := by
  have hTokens : tokenize "option x = \"a\\\"'b\";" =
      .ok ["option", "x", "=", "\"a\\\"'b\"", ";"] := by cbv
  have hMem : "\"a\\\"'b\"" ∈ ["option", "x", "=", "\"a\\\"'b\"", ";"] := by simp
  obtain ⟨quote, body, text, hSame, -, -, hStands, hKept, -⟩ :=
    literal_content hTokens hMem (by decide)
  rw [← String.toList_inj, Lexeme.toList_literal] at hSame
  obtain ⟨rfl, hBody⟩ := List.cons.inj hSame
  have hText : body = ['a', '\\', '"', '\'', 'b'] := (List.append_cancel_right hBody).symm
  subst hText
  rwa [hKept.mpr ⟨by simp [Token.isQuote], by simp [Token.isQuote]⟩] at hStands

/-- Quotes at the ends of what stands between the quotes of a literal are lost, so the literal
is read for the same text as another one. -/
theorem inner_quotes_lost :
    (∃ schema, parse "option x = \"'a'\";" {} = .ok schema ∧
        schema.options.get? "x" = some (.text "a")) ∧
      ∃ schema, parse "option x = \"a\";" {} = .ok schema ∧
        schema.options.get? "x" = some (.text "a") := by
  let schema : Schema := { Schema.new .proto3 with options := ⟨[("x", .text "a")]⟩ }
  have hTokens : tokenize "option x = \"'a'\";" = .ok ["option", "x", "=", "\"'a'\"", ";"] := by
    cbv
  have hOther : tokenize "option x = \"a\";" = .ok ["option", "x", "=", "\"a\"", ";"] := by cbv
  have hRead : readFile ["option", "x", "=", "\"'a'\"", ";"] {} = .ok schema :=
    readFile_of_statement rfl rfl rfl
  have hOtherRead : readFile ["option", "x", "=", "\"a\"", ";"] {} = .ok schema :=
    readFile_of_statement rfl rfl rfl
  refine ⟨⟨schema, ?_, rfl⟩, ⟨schema, ?_, rfl⟩⟩
  · rw [parse_of_tokenize hTokens, hRead]
    rfl
  · rw [parse_of_tokenize hOther, hOtherRead]
    rfl

end ProtoIdl
