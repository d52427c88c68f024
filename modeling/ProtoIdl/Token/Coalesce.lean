import ProtoIdl.Token

/-!
# Joining split string literals

A caller that brings its own tokens may have cut a string literal into pieces.
`Token.coalesce` joins a token that opens a quote without closing it with what
follows, up to the first token that closes one.  Where nothing closes it, the
opening token stays as it is.
-/

namespace ProtoIdl
namespace Token

/-- The tokens up to and including the first that closes a quote, and the tokens
after it. -/
def splitAtClosing? : List Token → Option (List Token × List Token)
  | [] => none
  | token :: rest =>
      if token.closesQuote then some ([token], rest)
      else (splitAtClosing? rest).map fun pieces => (token :: pieces.1, pieces.2)

/-- The two parts of a split are the whole list. -/
theorem append_of_splitAtClosing? {tokens literal rest : List Token}
    (hSplit : splitAtClosing? tokens = some (literal, rest)) :
    tokens = literal ++ rest := by
  induction tokens generalizing literal with
  | nil => simp [splitAtClosing?] at hSplit
  | cons token tail ih =>
      rw [splitAtClosing?] at hSplit
      split at hSplit
      · cases hSplit
        rfl
      · obtain ⟨⟨inner, after⟩, hInner, hPair⟩ := Option.map_eq_some_iff.mp hSplit
        cases hPair
        simp [ih hInner]

/-- What follows the closing token is not longer than the list. -/
theorem length_le_of_splitAtClosing? {tokens literal rest : List Token}
    (hSplit : splitAtClosing? tokens = some (literal, rest)) :
    rest.length ≤ tokens.length := by
  simp [append_of_splitAtClosing? hSplit]

/-- Join every string literal that was cut into several tokens. -/
def coalesce : List Token → List Token
  | [] => []
  | token :: rest =>
      if token.opensQuote then
        match _hSplit : splitAtClosing? rest with
        | some (literal, after) => String.join (token :: literal) :: coalesce after
        | none => token :: coalesce rest
      else token :: coalesce rest
termination_by tokens => tokens.length
decreasing_by
  all_goals simp only [List.length_cons]
  · have hShorter := length_le_of_splitAtClosing? _hSplit
    omega
  · omega
  · omega

end Token
end ProtoIdl
