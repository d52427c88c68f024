import ProtoIdl.Proofs.Token.Joining
import ProtoIdl.Proofs.Token.Splitting

/-!
# Quotes in scanned tokens

A token that the scanner makes never opens a string without closing it: a token that
starts with a quote is a string literal, and ends with the same quote.  Joining split
literals therefore leaves scanned tokens as they are.
-/

namespace ProtoIdl

theorem Lexeme.toList_literal (quote : Char) (body : List Char) :
    (literal quote body).token.toList = quote :: (body ++ [quote]) := by
  simp [token, slice]

/-- A token that starts with a quote is in no other class than that of literals. -/
theorem TokenClass.eq_literal {token : Token} {kind : TokenClass}
    (hKind : kind.Holds token.toList) (hQuoted : token.startsQuoted = true) :
    kind = .literal := by
  rw [TokenClass.eq_ofText hKind]
  obtain ⟨quote, rest, hText, hQuote⟩ := Token.exists_of_startsQuoted hQuoted
  rw [hText]
  rcases hQuote with rfl | rfl <;> rfl

namespace Scanner

variable {scanner : Scanner} {tokens : List Token}

/-- A token of a text that starts with a quote is a string literal. -/
theorem exists_literal_of_mem_tokens (hTokens : scanner.tokens = .ok tokens) {literal : Token}
    (hMem : literal ∈ tokens) (hQuoted : literal.startsQuoted = true) :
    ∃ quote body, literal = (Lexeme.literal quote body).token ∧ Token.isQuote quote = true ∧
      IsQuoted quote body := by
  obtain ⟨pieces, last, hSplits, -, rfl⟩ := splits_of_tokens hTokens
  obtain ⟨kind, hKind, -⟩ := hSplits.existsUnique_kind literal hMem
  cases TokenClass.eq_literal hKind hQuoted
  obtain ⟨quote, body, hQuote, hBody, hText⟩ := hKind
  refine ⟨quote, body, ?_, hQuote, hBody⟩
  rw [← String.toList_inj, hText, Lexeme.toList_literal]

/-- None of the tokens of a text opens a quote without closing it. -/
theorem opensQuote_of_mem_tokens (hTokens : scanner.tokens = .ok tokens) :
    ∀ token ∈ tokens, token.opensQuote = false := by
  intro token hMem
  cases hOpens : token.opensQuote with
  | false => rfl
  | true =>
      have hQuoted := Token.startsQuoted_of_opensQuote hOpens
      obtain ⟨quote, body, rfl, hQuote, -⟩ := exists_literal_of_mem_tokens hTokens hMem hQuoted
      -- the closing quote of the literal is a further one
      rw [Token.opensQuote, Lexeme.toList_literal] at hOpens
      simp [hQuote] at hOpens

/-- The only errors of the scanner are lexical ones. -/
theorem lexical_of_tokens {fault : ParseError} (hFault : scanner.tokens = .error fault) :
    ∃ line kind, fault = .lexical line kind := by
  obtain ⟨line, kind, _, _, _, hSame, _⟩ := unclosed_of_tokens hFault
  exact ⟨line, kind, hSame⟩

end Scanner

/-- The tokens of a text are not joined. -/
theorem coalesce_of_tokenize {source : String} {tokens : List Token}
    (hTokens : tokenize source = .ok tokens) : Token.coalesce tokens = tokens :=
  Token.coalesce_eq_self (Scanner.opensQuote_of_mem_tokens hTokens)

end ProtoIdl
