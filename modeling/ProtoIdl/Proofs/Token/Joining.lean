import ProtoIdl.Proofs.Token.Quoted
import ProtoIdl.Token.Coalesce

/-!
# What is joined

Equations of `Token.coalesce`, one for each thing that a token can be in front of its
successors: it opens nothing, it opens a string that nothing closes, or it opens a string that
is closed.  Where no token opens a string that a later one closes, there is nothing to join,
and joining leaves tokens in this form.
-/

namespace ProtoIdl
namespace Token

/-- No token opens a string that a later token closes. -/
def NothingToJoin (tokens : List Token) : Prop :=
  tokens.Pairwise fun token later => token.opensQuote = true → later.closesQuote = false

/-! ## Splitting at the closing token -/

/-- Nothing is split off just if no token closes a quote. -/
theorem splitAtClosing?_eq_none_iff {tokens : List Token} :
    splitAtClosing? tokens = none ↔ ∀ token ∈ tokens, token.closesQuote = false := by
  induction tokens with
  | nil => simp [splitAtClosing?]
  | cons token rest ih =>
      rw [splitAtClosing?, List.forall_mem_cons, ← ih]
      cases token.closesQuote <;> simp

/-- What is split off ends with the first token that closes a quote. -/
theorem splitAtClosing?_eq_some_iff {tokens literal later : List Token} :
    splitAtClosing? tokens = some (literal, later) ↔
      ∃ middle last, literal = middle ++ [last] ∧ tokens = middle ++ last :: later ∧
        (∀ token ∈ middle, token.closesQuote = false) ∧ last.closesQuote = true := by
  induction tokens generalizing literal with
  | nil => simp [splitAtClosing?]
  | cons token rest ih =>
      rw [splitAtClosing?]
      cases hCloses : token.closesQuote with
      | true =>
          rw [if_pos rfl]
          constructor
          · rintro ⟨⟩
            exact ⟨[], token, rfl, rfl, by simp, hCloses⟩
          · rintro ⟨_ | ⟨first, middle⟩, last, rfl, hTokens, hMiddle, -⟩
            · cases hTokens
              rfl
            · cases hTokens
              have hOpen := hMiddle token (by simp)
              rw [hCloses] at hOpen
              cases hOpen
      | false =>
          rw [if_neg (by simp)]
          constructor
          · intro hSplit
            obtain ⟨⟨inner, after⟩, hInner, hPair⟩ := Option.map_eq_some_iff.mp hSplit
            cases hPair
            obtain ⟨middle, last, rfl, rfl, hMiddle, hLast⟩ := ih.mp hInner
            exact ⟨token :: middle, last, rfl, rfl,
              List.forall_mem_cons.mpr ⟨hCloses, hMiddle⟩, hLast⟩
          · rintro ⟨_ | ⟨first, middle⟩, last, rfl, hTokens, hMiddle, hLast⟩
            · cases hTokens
              rw [hCloses] at hLast
              cases hLast
            · cases hTokens
              have hInner := ih.mpr ⟨middle, last, rfl, rfl,
                (List.forall_mem_cons.mp hMiddle).2, hLast⟩
              rw [hInner]
              rfl

/-! ## Equations -/

section Equations

variable {token first last : Token} {rest middle : List Token}

/-- A token that opens nothing stays. -/
theorem coalesce_cons (hPlain : token.opensQuote = false) (rest : List Token) :
    coalesce (token :: rest) = token :: coalesce rest := by
  rw [coalesce, if_neg (by simp [hPlain])]

/-- A token that nothing closes stays, whatever it opens. -/
theorem coalesce_cons_of_open (hRest : ∀ later ∈ rest, later.closesQuote = false) :
    coalesce (token :: rest) = token :: coalesce rest := by
  rw [coalesce]
  split
  · split
    · next hSplit =>
        rw [splitAtClosing?_eq_none_iff.mpr hRest] at hSplit
        cases hSplit
    · rfl
  · rfl

/-- The pieces of a literal, up to the first that closes it, make one token. -/
theorem coalesce_pieces (hFirst : first.opensQuote = true)
    (hMiddle : ∀ token ∈ middle, token.closesQuote = false) (hLast : last.closesQuote = true)
    (later : List Token) :
    coalesce (first :: (middle ++ last :: later)) =
      String.join (first :: (middle ++ [last])) :: coalesce later := by
  have hSplit : splitAtClosing? (middle ++ last :: later) = some (middle ++ [last], later) :=
    splitAtClosing?_eq_some_iff.mpr ⟨middle, last, rfl, rfl, hMiddle, hLast⟩
  rw [coalesce, if_pos hFirst]
  split
  · next hSome =>
      rw [hSplit] at hSome
      cases hSome
      rfl
  · next hNone =>
      rw [hSplit] at hNone
      cases hNone

/-- Induction on the tokens by what joining makes of the first of them. -/
theorem coalesce_induction {motive : List Token → Prop} (nil : motive [])
    (plain : ∀ token rest, token.opensQuote = false → motive rest → motive (token :: rest))
    (leftOpen : ∀ token rest, token.opensQuote = true →
      (∀ later ∈ rest, later.closesQuote = false) → motive rest → motive (token :: rest))
    (pieces : ∀ first middle last later, first.opensQuote = true →
      (∀ token ∈ middle, token.closesQuote = false) → last.closesQuote = true → motive later →
        motive (first :: (middle ++ last :: later)))
    (tokens : List Token) : motive tokens := by
  fun_induction coalesce tokens with
  | case1 => exact nil
  | case2 first rest hFirst literal later hSplit ih =>
      obtain ⟨middle, last, rfl, rfl, hMiddle, hLast⟩ := splitAtClosing?_eq_some_iff.mp hSplit
      exact pieces first middle last later hFirst hMiddle hLast ih
  | case3 token rest hOpens hSplit ih =>
      exact leftOpen token rest hOpens (splitAtClosing?_eq_none_iff.mp hSplit) ih
  | case4 token rest hOpens ih => exact plain token rest (by simpa using hOpens) ih

end Equations

/-! ## Nothing to join -/

/-- Where there is nothing to join, the tokens stay. -/
theorem coalesce_of_nothingToJoin {tokens : List Token} (hNothing : NothingToJoin tokens) :
    coalesce tokens = tokens := by
  induction tokens with
  | nil => simp [coalesce]
  | cons token rest ih =>
      obtain ⟨hLater, hRest⟩ := List.pairwise_cons.mp hNothing
      cases hFirst : token.opensQuote with
      | false => rw [coalesce_cons hFirst, ih hRest]
      | true =>
          rw [coalesce_cons_of_open fun later hMem => hLater later hMem hFirst, ih hRest]

/-- Where no token opens a string, there is nothing to join. -/
theorem coalesce_eq_self {tokens : List Token}
    (hTokens : ∀ token ∈ tokens, token.opensQuote = false) : coalesce tokens = tokens := by
  refine coalesce_of_nothingToJoin (List.pairwise_of_forall_mem_list fun token hMem _ _ hOpens => ?_)
  rw [hTokens token hMem] at hOpens
  cases hOpens

/-- Where no token closes a quote, nothing is joined, although literals may be opened. -/
theorem coalesce_of_not_closesQuote {tokens : List Token}
    (hTokens : ∀ token ∈ tokens, token.closesQuote = false) : coalesce tokens = tokens :=
  coalesce_of_nothingToJoin <|
    List.pairwise_of_forall_mem_list fun _ _ later hLater _ => hTokens later hLater

/-- A token that closes a quote ends with it. -/
theorem exists_quote_of_closesQuote {token : Token} (hCloses : token.closesQuote = true) :
    ∃ quote ∈ token.toList, isQuote quote = true := by
  have hSuffix := List.dropWhile_suffix (l := token.toList) fun c => !isQuote c
  have hHead := List.head?_dropWhile_not (fun c => !isQuote c) token.toList
  rw [closesQuote] at hCloses
  split at hCloses
  · next quote hDrop =>
      rw [hDrop] at hSuffix hHead
      exact ⟨quote, hSuffix.subset (by simp), by simpa using hHead⟩
  · cases hCloses

/-- What is joined opens nothing: the quote that closes it is a further one. -/
theorem opensQuote_join {first last : Token} {middle : List Token}
    (hFirst : first.opensQuote = true) (hLast : last.closesQuote = true) :
    opensQuote (String.join (first :: (middle ++ [last]))) = false := by
  obtain ⟨quote, body, hText, -, -⟩ := exists_of_opensQuote hFirst
  obtain ⟨closing, hMem, hClosing⟩ := exists_quote_of_closesQuote hLast
  have hJoin : (String.join (first :: (middle ++ [last]))).toList =
      quote :: (body ++ (middle.flatMap String.toList ++ last.toList)) := by
    simp [String.toList_join, hText]
  have hAny : (body ++ (middle.flatMap String.toList ++ last.toList)).any isQuote = true :=
    List.any_eq_true.mpr ⟨closing, by simp [hMem], hClosing⟩
  simp only [opensQuote, hJoin, hAny, Bool.not_true, Bool.and_false]

/-- Joining leaves nothing to join. -/
theorem nothingToJoin_coalesce (tokens : List Token) : NothingToJoin (coalesce tokens) := by
  induction tokens using coalesce_induction with
  | nil => simp [coalesce, NothingToJoin]
  | plain token rest hPlain ih =>
      rw [coalesce_cons hPlain]
      refine List.pairwise_cons.mpr ⟨fun later _ hOpens => ?_, ih⟩
      rw [hPlain] at hOpens
      cases hOpens
  | leftOpen token rest hOpens hRest ih =>
      have hSame := coalesce_of_not_closesQuote hRest
      rw [coalesce_cons_of_open hRest]
      refine List.pairwise_cons.mpr ⟨fun later hMem _ => ?_, ih⟩
      rw [hSame] at hMem
      exact hRest later hMem
  | pieces first middle last later hFirst hMiddle hLast ih =>
      rw [coalesce_pieces hFirst hMiddle hLast]
      refine List.pairwise_cons.mpr ⟨fun other _ hOpens => ?_, ih⟩
      rw [opensQuote_join hFirst hLast] at hOpens
      cases hOpens

/-- Joining a second time changes nothing. -/
theorem coalesce_coalesce (tokens : List Token) :
    coalesce (coalesce tokens) = coalesce tokens :=
  coalesce_of_nothingToJoin (nothingToJoin_coalesce tokens)

end Token
end ProtoIdl
