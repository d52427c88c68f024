import ProtoIdl.Grammar.File
import ProtoIdl.Proofs.Token.Quoted

/-!
# Closing a literal

`Token.closed` gives a literal that is opened and not closed the quote that is missing, and
leaves all other tokens as they are.  Nothing that the grammar asks of a token tells the two
apart: a token that begins with a quote is no mark, no comment, no keyword and no number, and
what it stands for has no quotes at its ends.
-/

namespace ProtoIdl
namespace Token

/-- The token with the quote that it misses, if it opens a literal and does not close it. -/
def closed (token : Token) : Token :=
  if token.opensQuote then token ++ String.ofList (token.toList.take 1) else token

variable {token : Token}

theorem toList_closed {quote : Char} {body : List Char} (hOpens : token.opensQuote = true)
    (hText : token.toList = quote :: body) :
    token.closed.toList = quote :: (body ++ [quote]) := by
  simp [closed, hOpens, hText]

theorem closed_eq_self (hOpens : token.opensQuote = false) : token.closed = token := by
  simp [closed, hOpens]

/-- No literal stays open. -/
@[simp] theorem opensQuote_closed (token : Token) : token.closed.opensQuote = false := by
  cases hOpens : token.opensQuote with
  | false => rwa [closed_eq_self hOpens]
  | true =>
      obtain ⟨quote, body, hText, hQuote, -⟩ := exists_of_opensQuote hOpens
      rw [opensQuote, toList_closed hOpens hText]
      simp [hQuote]

@[simp] theorem startsQuoted_closed (token : Token) :
    token.closed.startsQuoted = token.startsQuoted := by
  cases hOpens : token.opensQuote with
  | false => rw [closed_eq_self hOpens]
  | true =>
      obtain ⟨quote, body, hText, hQuote, -⟩ := exists_of_opensQuote hOpens
      rw [startsQuoted, toList_closed hOpens hText, startsQuoted, hText]

/-- What is the same for all tokens that begin with a quote does not change. -/
theorem apply_closed {answer : Token → α} {quoted : α}
    (hQuoted : ∀ token, token.startsQuoted = true → answer token = quoted) (token : Token) :
    answer token.closed = answer token := by
  cases hOpens : token.opensQuote with
  | false => rw [closed_eq_self hOpens]
  | true =>
      have hStarts := startsQuoted_of_opensQuote hOpens
      rw [hQuoted token hStarts, hQuoted token.closed (by rw [startsQuoted_closed, hStarts])]

/-! ## What the grammar asks of a token -/

theorem not_isNameSuffix_of_startsQuoted (hQuoted : token.startsQuoted = true) :
    Grammar.isNameSuffix token = false := by
  obtain ⟨quote, rest, hText, hQuote⟩ := exists_of_startsQuoted hQuoted
  rw [Grammar.isNameSuffix, hText]
  rcases hQuote with rfl | rfl <;> rfl

/-- The quote that was missing does not make another word of a token. -/
theorem closed_eq_iff {word : Token} (hWord : word.startsQuoted = false) :
    token.closed = word ↔ token = word := by
  have hQuoted : ∀ token : Token, token.startsQuoted = true → (token = word) = False :=
    fun token hStarts => eq_false (ne_of_startsQuoted hStarts hWord)
  exact iff_of_eq (apply_closed hQuoted token)

theorem map_closed_eq_some_iff {word : Token} (hWord : word.startsQuoted = false)
    {ahead : Option Token} : ahead.map closed = some word ↔ ahead = some word := by
  cases ahead with
  | none => simp
  | some token => simp [closed_eq_iff hWord]

/-- Two tokens make a text without quotes only if neither is an open literal. -/
theorem closed_append_closed_eq_iff {first second : Token} {word : String}
    (hWord : word.toList.any isQuote = false) :
    first.closed ++ second.closed = word ↔ first ++ second = word := by
  have hQuoted : ∀ token : Token, token.opensQuote = true →
      token.toList.any isQuote = true ∧ token.closed.toList.any isQuote = true := by
    intro token hOpens
    obtain ⟨quote, body, hText, hQuote, -⟩ := exists_of_opensQuote hOpens
    rw [toList_closed hOpens hText, hText]
    simp [hQuote]
  have hNe : ∀ before after : Token,
      (before.toList.any isQuote = true ∨ after.toList.any isQuote = true) →
        before ++ after ≠ word := by
    rintro before after hSome rfl
    rw [String.toList_append, List.any_append, Bool.or_eq_false_iff] at hWord
    rcases hSome with hBefore | hAfter
    · exact absurd hBefore (by simp [hWord.1])
    · exact absurd hAfter (by simp [hWord.2])
  cases hFirst : first.opensQuote with
  | true =>
      obtain ⟨hOpen, hClosed⟩ := hQuoted first hFirst
      exact iff_of_false (hNe _ _ (.inl hClosed)) (hNe _ _ (.inl hOpen))
  | false =>
      cases hSecond : second.opensQuote with
      | true =>
          obtain ⟨hOpen, hClosed⟩ := hQuoted second hSecond
          exact iff_of_false (hNe _ _ (.inr hClosed)) (hNe _ _ (.inr hOpen))
      | false => rw [closed_eq_self hFirst, closed_eq_self hSecond]

@[simp] theorem isPunctuation_closed (token : Token) :
    token.closed.isPunctuation = token.isPunctuation :=
  apply_closed (fun _ => not_isPunctuation_of_startsQuoted) token

@[simp] theorem isComment_closed (token : Token) : token.closed.isComment = token.isComment :=
  apply_closed (fun _ => not_isComment_of_startsQuoted) token

@[simp] theorem isWordLike_closed (token : Token) : token.closed.isWordLike = token.isWordLike := by
  simp [isWordLike]

@[simp] theorem ofToken?_closed (token : Token) :
    Keyword.ofToken? token.closed = Keyword.ofToken? token :=
  apply_closed (fun _ => ofToken?_of_startsQuoted) token

@[simp] theorem within?_closed (interval : Numeral.Interval) (token : Token) :
    Numeral.within? interval token.closed = Numeral.within? interval token := by
  have hNone : ∀ token : Token, token.startsQuoted = true →
      Numeral.within? interval token = none := by
    intro token hQuoted
    rw [Numeral.within?, value?_of_startsQuoted hQuoted]
    rfl
  exact apply_closed hNone token

@[simp] theorem isNameSuffix_closed (token : Token) :
    Grammar.isNameSuffix token.closed = Grammar.isNameSuffix token :=
  apply_closed (fun _ => not_isNameSuffix_of_startsQuoted) token

/-- The quotes at the ends are taken away, whether there is one or there are two. -/
@[simp] theorem unquote_closed (token : Token) : token.closed.unquote = token.unquote := by
  cases hOpens : token.opensQuote with
  | false => rw [closed_eq_self hOpens]
  | true =>
      obtain ⟨quote, body, hText, hQuote, hBody⟩ := exists_of_opensQuote hOpens
      have hOne : Text.trimWith isQuote (quote :: body) = Text.trimWith isQuote body := by
        rw [Text.trimWith, List.dropWhile_cons, if_pos hQuote]
        rfl
      rw [unquote, toList_closed hOpens hText, Text.trimWith_enclosed hQuote, unquote, hText, hOne]

@[simp] theorem ofLiteral_closed (token : Token) :
    OptionValue.ofLiteral token.closed = OptionValue.ofLiteral token := by
  simp only [OptionValue.ofLiteral, unquote_closed,
    closed_eq_iff (show startsQuoted "true" = false by decide),
    closed_eq_iff (show startsQuoted "false" = false by decide)]

@[simp] theorem versionOfLiteral?_closed (token : Token) :
    Grammar.versionOfLiteral? token.closed = Grammar.versionOfLiteral? token := by
  simp only [Grammar.versionOfLiteral?, startsQuoted_closed, unquote_closed]

end Token
end ProtoIdl
