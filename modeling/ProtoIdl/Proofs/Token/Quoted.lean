import ProtoIdl.Schema.Option
import ProtoIdl.Text.Numeral
import ProtoIdl.Token.Keyword

/-!
# Tokens that begin with a quote

A token that begins with a quote is a word to the grammar: it is no mark and no comment.  It is
no keyword and no number either, and as a literal it stands for a text.
-/

namespace ProtoIdl
namespace Token

variable {token : Token}

theorem exists_of_startsQuoted (hQuoted : token.startsQuoted = true) :
    ∃ quote rest, token.toList = quote :: rest ∧ (quote = '"' ∨ quote = '\'') := by
  rw [startsQuoted] at hQuoted
  split at hQuoted
  · next quote rest hText => exact ⟨quote, rest, hText, by simpa [isQuote] using hQuoted⟩
  · cases hQuoted

theorem ne_of_startsQuoted (hQuoted : token.startsQuoted = true) {word : Token}
    (hWord : word.startsQuoted = false) : token ≠ word := by
  rintro rfl
  rw [hQuoted] at hWord
  cases hWord

theorem not_isPunctuation_of_startsQuoted (hQuoted : token.startsQuoted = true) :
    token.isPunctuation = false := by
  obtain ⟨quote, rest, hText, hQuote⟩ := exists_of_startsQuoted hQuoted
  rw [isPunctuation, hText]
  rcases rest with _ | ⟨c, rest⟩
  · rcases hQuote with rfl | rfl <;> decide
  · rfl

theorem not_isComment_of_startsQuoted (hQuoted : token.startsQuoted = true) :
    token.isComment = false := by
  obtain ⟨quote, rest, hText, hQuote⟩ := exists_of_startsQuoted hQuoted
  rw [isComment, hText]
  rcases hQuote with rfl | rfl <;> rfl

theorem isWordLike_of_startsQuoted (hQuoted : token.startsQuoted = true) :
    token.isWordLike = true := by
  simp [isWordLike, not_isPunctuation_of_startsQuoted hQuoted,
    not_isComment_of_startsQuoted hQuoted]

theorem ofToken?_of_startsQuoted (hQuoted : token.startsQuoted = true) :
    Keyword.ofToken? token = none := by
  cases hKeyword : Keyword.ofToken? token with
  | none => rfl
  | some keyword =>
      have hPlain : ∀ keyword : Keyword, keyword.text.startsQuoted = false := by
        intro keyword
        cases keyword <;> decide
      exact absurd (Keyword.text_of_ofToken? hKeyword).symm
        (ne_of_startsQuoted hQuoted (hPlain keyword))

theorem value?_of_startsQuoted (hQuoted : token.startsQuoted = true) :
    Numeral.value? token.toList = none := by
  obtain ⟨quote, rest, hText, hQuote⟩ := exists_of_startsQuoted hQuoted
  rw [hText]
  rcases hQuote with rfl | rfl <;> rfl

theorem ofLiteral_of_startsQuoted (hQuoted : token.startsQuoted = true) :
    OptionValue.ofLiteral token = .text token.unquote := by
  rw [OptionValue.ofLiteral, if_neg (ne_of_startsQuoted hQuoted (by decide)),
    if_neg (ne_of_startsQuoted hQuoted (by decide))]

/-! ## Literals that are opened -/

/-- A literal that is opened is one quote and a text without quotes. -/
theorem exists_of_opensQuote (hOpens : token.opensQuote = true) :
    ∃ quote body, token.toList = quote :: body ∧ isQuote quote = true ∧
      ∀ c ∈ body, isQuote c = false := by
  rw [opensQuote] at hOpens
  split at hOpens
  · next quote body hText =>
      simp only [Bool.and_eq_true, Bool.not_eq_true', List.any_eq_false,
        Bool.not_eq_true] at hOpens
      exact ⟨quote, body, hText, hOpens⟩
  · cases hOpens

theorem startsQuoted_of_opensQuote (hOpens : token.opensQuote = true) :
    token.startsQuoted = true := by
  obtain ⟨quote, body, hText, hQuote, -⟩ := exists_of_opensQuote hOpens
  rwa [startsQuoted, hText]

end Token
end ProtoIdl
