import ProtoIdl.Text.Numeral
import ProtoIdl.Token.Keyword

/-!
# Words of brackets

Four kinds of brackets stand in schema files.  `Bracket.closes pending tokens` reads tokens
against the brackets that are open: a closing bracket must be of the kind of the latest one,
and in the end none may be open.

`Enclosed` describes tokens with all their brackets closed by what they are made of, and such
tokens are passed over whatever is open around them.  `Inline` are enclosed tokens without a
brace and without a semicolon outside of brackets, and a `Statement` is a run of inline tokens
with its end: a semicolon, or a braced body that a semicolon may follow.
-/

namespace ProtoIdl

/-! ## Brackets -/

/-- The kinds of brackets. -/
inductive Bracket where
  | brace
  | parenthesis
  | square
  | angle
  deriving DecidableEq, Repr

namespace Bracket

/-- The token that opens a bracket. -/
def opening : Bracket → Token
  | brace => Token.openBrace
  | parenthesis => "("
  | square => "["
  | angle => "<"

/-- The token that closes a bracket. -/
def closing : Bracket → Token
  | brace => Token.closeBrace
  | parenthesis => ")"
  | square => "]"
  | angle => ">"

/-- Every kind. -/
def all : List Bracket :=
  [brace, parenthesis, square, angle]

/-- The bracket that a token opens. -/
def openedBy? (token : Token) : Option Bracket :=
  all.find? fun bracket => bracket.opening == token

/-- The bracket that a token closes. -/
def closedBy? (token : Token) : Option Bracket :=
  all.find? fun bracket => bracket.closing == token

@[simp] theorem openedBy?_opening (bracket : Bracket) :
    openedBy? bracket.opening = some bracket := by
  cases bracket <;> decide

@[simp] theorem openedBy?_closing (bracket : Bracket) : openedBy? bracket.closing = none := by
  cases bracket <;> decide

@[simp] theorem closedBy?_closing (bracket : Bracket) :
    closedBy? bracket.closing = some bracket := by
  cases bracket <;> decide

/-- The brackets that are open after a token, the latest first.  A closing bracket must be
of the kind of the latest one. -/
def step? (pending : List Bracket) (token : Token) : Option (List Bracket) :=
  match openedBy? token, closedBy? token with
  | some bracket, _ => some (bracket :: pending)
  | none, some bracket => if pending.head? = some bracket then some pending.tail else none
  | none, none => some pending

/-- Whether tokens close the brackets `pending` and every bracket that they open, the latest
first. -/
def closes : List Bracket → List Token → Bool
  | pending, [] => pending.isEmpty
  | pending, token :: rest => (step? pending token).any fun after => closes after rest

end Bracket

/-- Whether a token opens or closes a bracket. -/
def Token.isBracket (token : Token) : Bool :=
  (Bracket.openedBy? token).isSome || (Bracket.closedBy? token).isSome

theorem Token.isBracket_eq_false_iff {token : Token} :
    token.isBracket = false ↔
      Bracket.openedBy? token = none ∧ Bracket.closedBy? token = none := by
  rw [isBracket, Bool.or_eq_false_iff, Option.isSome_eq_false_iff, Option.isSome_eq_false_iff,
    Option.isNone_iff_eq_none, Option.isNone_iff_eq_none]

/-- Every bracket of these tokens is closed by one of its own kind, the latest first, and no
other is closed. -/
def Nested (tokens : List Token) : Prop :=
  Bracket.closes [] tokens = true

instance (tokens : List Token) : Decidable (Nested tokens) :=
  inferInstanceAs (Decidable (_ = true))

namespace Bracket

variable {pending : List Bracket} {rest : List Token}

theorem closes_of_not_bracket {token : Token} (hToken : token.isBracket = false) :
    closes pending (token :: rest) = closes pending rest := by
  obtain ⟨hOpened, hClosed⟩ := Token.isBracket_eq_false_iff.mp hToken
  simp only [closes, step?, hOpened, hClosed, Option.any_some]

theorem closes_opening (bracket : Bracket) :
    closes pending (bracket.opening :: rest) = closes (bracket :: pending) rest := by
  simp only [closes, step?, openedBy?_opening, Option.any_some]

theorem closes_closing (bracket : Bracket) :
    closes (bracket :: pending) (bracket.closing :: rest) = closes pending rest := by
  simp only [closes, step?, openedBy?_closing, closedBy?_closing, List.head?_cons, if_true,
    List.tail_cons, Option.any_some]

/-- Only the brackets matter. -/
theorem closes_filter (pending : List Bracket) (tokens : List Token) :
    closes pending (tokens.filter Token.isBracket) = closes pending tokens := by
  induction tokens generalizing pending with
  | nil => rfl
  | cons token rest ih =>
      cases hBracket : token.isBracket with
      | false =>
          rw [List.filter_cons_of_neg (by simp [hBracket]), closes_of_not_bracket hBracket, ih]
      | true =>
          simp only [List.filter_cons_of_pos hBracket, closes, ih]

end Bracket

/-! ## Tokens with all their brackets closed -/

/-- Every bracket of the tokens is closed among them. -/
inductive Enclosed : List Token → Prop where
  | nil : Enclosed []
  | plain {token : Token} {rest : List Token} (hToken : token.isBracket = false)
      (hRest : Enclosed rest) : Enclosed (token :: rest)
  | group {inner rest : List Token} (bracket : Bracket) (hInner : Enclosed inner)
      (hRest : Enclosed rest) : Enclosed (bracket.opening :: (inner ++ bracket.closing :: rest))

namespace Enclosed

theorem append {first second : List Token} (hFirst : Enclosed first)
    (hSecond : Enclosed second) : Enclosed (first ++ second) := by
  induction hFirst with
  | nil => exact hSecond
  | plain hToken hRest ih => exact .plain hToken ih
  | group bracket hInner hRest ihInner ihRest =>
      simpa using group bracket hInner ihRest

theorem of_plain {tokens : List Token} (hTokens : ∀ token ∈ tokens, token.isBracket = false) :
    Enclosed tokens := by
  induction tokens with
  | nil => exact .nil
  | cons token rest ih =>
      obtain ⟨hToken, hRest⟩ := List.forall_mem_cons.mp hTokens
      exact .plain hToken (ih hRest)

/-- Enclosed tokens are passed over, whatever is open around them. -/
theorem closes_append {tokens : List Token} (hTokens : Enclosed tokens)
    (pending : List Bracket) (rest : List Token) :
    Bracket.closes pending (tokens ++ rest) = Bracket.closes pending rest := by
  induction hTokens generalizing pending rest with
  | nil => rfl
  | plain hToken hRest ih =>
      rw [List.cons_append, Bracket.closes_of_not_bracket hToken, ih]
  | group bracket hInner hRest ihInner ihRest =>
      rw [List.cons_append, Bracket.closes_opening, List.append_assoc, ihInner,
        List.cons_append, Bracket.closes_closing, ihRest]

/-- The brackets of enclosed tokens are a nested word. -/
theorem nested_filter {tokens : List Token} (hTokens : Enclosed tokens) :
    Nested (tokens.filter Token.isBracket) := by
  have hCloses := hTokens.closes_append [] []
  rw [List.append_nil] at hCloses
  rw [Nested, Bracket.closes_filter, hCloses]
  rfl

end Enclosed

/-! ## Tokens inside a statement -/

/-- A token that is no bracket and ends no statement. -/
def Token.IsInline (token : Token) : Prop :=
  token.isBracket = false ∧ token ≠ ";"

instance (token : Token) : Decidable token.IsInline :=
  inferInstanceAs (Decidable (_ ∧ _))

namespace Token

variable {token : Token}

theorem isInline_of_not_punctuation (hToken : token.isPunctuation = false) : token.IsInline := by
  have hMarks : ∀ mark : Token, mark.isPunctuation = true → token ≠ mark := by
    rintro mark hMark rfl
    rw [hMark] at hToken
    cases hToken
  have hOpening : ∀ bracket ∈ Bracket.all, bracket.opening.isPunctuation = true := by decide
  have hClosing : ∀ bracket ∈ Bracket.all, bracket.closing.isPunctuation = true := by decide
  refine ⟨?_, hMarks _ (by decide)⟩
  rw [isBracket_eq_false_iff, Bracket.openedBy?, Bracket.closedBy?, List.find?_eq_none,
    List.find?_eq_none]
  exact ⟨fun bracket hMem => by simpa using (hMarks _ (hOpening bracket hMem)).symm,
    fun bracket hMem => by simpa using (hMarks _ (hClosing bracket hMem)).symm⟩

theorem isInline_of_isWordLike (hToken : token.isWordLike = true) : token.IsInline := by
  rw [isWordLike, Bool.and_eq_true, Bool.not_eq_true', Bool.not_eq_true'] at hToken
  exact isInline_of_not_punctuation hToken.1

/-- A class without marks keeps a token from being one. -/
theorem isInline_of_class {class? : Char → Bool} (hClass : marks.any class? = false)
    (hToken : ∀ c, token.toList = [c] → class? c = true) : token.IsInline := by
  refine isInline_of_not_punctuation ?_
  unfold isPunctuation
  split
  · next c hChars =>
      rw [isMark, List.contains_eq_mem, decide_eq_false_iff_not]
      exact fun hMem => List.any_eq_false.mp hClass c hMem (hToken c hChars)
  · rfl

/-- What is known of the first character of a token keeps it from being a mark. -/
theorem isInline_of_head {class? : Char → Bool} (hClass : marks.any class? = false)
    (hToken : token.toList.head?.any class? = true) : token.IsInline := by
  refine isInline_of_class hClass fun c hChars => ?_
  rw [hChars] at hToken
  exact hToken

theorem isInline_of_isComment (hToken : token.isComment = true) : token.IsInline := by
  refine isInline_of_not_punctuation ?_
  unfold isComment at hToken
  split at hToken
  · next rest hChars => rw [isPunctuation, hChars]
  · cases hToken

theorem isInline_of_startsQuoted (hToken : token.startsQuoted = true) : token.IsInline := by
  have hQuote : marks.any isQuote = false := by decide
  refine isInline_of_head hQuote ?_
  unfold startsQuoted at hToken
  split at hToken
  · next c rest hChars => simpa [hChars] using hToken
  · cases hToken

/-- A numeral is no mark. -/
theorem isInline_of_within? {interval : Numeral.Interval} {value : Int}
    (hRead : Numeral.within? interval token = some value) : token.IsInline := by
  have hMarks : marks.any (fun c => (Numeral.value? [c]).isSome) = false := by decide
  refine isInline_of_class hMarks fun c hChars => ?_
  cases hValue : Numeral.value? [c] with
  | some found => rfl
  | none =>
      rw [Numeral.within?, hChars, hValue] at hRead
      cases hRead

end Token

theorem Keyword.isInline_text (keyword : Keyword) : keyword.text.IsInline := by
  cases keyword <;> decide

theorem Keyword.isWordLike_of_ofToken? {token : Token} {keyword : Keyword}
    (hRead : ofToken? token = some keyword) : token.isWordLike = true := by
  rw [← text_of_ofToken? hRead]
  cases keyword <;> decide

/-! ## Statements -/

/-- Tokens inside a statement.  Every bracket is closed, and outside of brackets there is
neither a brace nor a semicolon. -/
inductive Inline : List Token → Prop where
  | nil : Inline []
  | plain {token : Token} {rest : List Token} (hToken : token.IsInline) (hRest : Inline rest) :
      Inline (token :: rest)
  | group {inner rest : List Token} (bracket : Bracket) (hKind : bracket ≠ .brace)
      (hInner : Enclosed inner) (hRest : Inline rest) :
      Inline (bracket.opening :: (inner ++ bracket.closing :: rest))

/-- The end of a statement: a semicolon, or a body in braces with a semicolon or without. -/
inductive Ending : List Token → Prop where
  | stop : Ending [";"]
  | body {inner rest : List Token} (hInner : Enclosed inner) (hRest : rest = [] ∨ rest = [";"]) :
      Ending (Token.openBrace :: (inner ++ Token.closeBrace :: rest))

/-- What follows the first token of a statement. -/
def Statement (tokens : List Token) : Prop :=
  ∃ inside ending, tokens = inside ++ ending ∧ Inline inside ∧ Ending ending

/-- A member of a list with its first token: an empty statement, or a word and what follows
it in a statement. -/
def IsMember (first : Token) (used : List Token) : Prop :=
  first = ";" ∧ used = [] ∨ first.isWordLike = true ∧ Statement used

/-- Tokens of a shape, and a token that ends them. -/
def EndsWith (last : Token) (shape : List Token → Prop) (tokens : List Token) : Prop :=
  ∃ inner, tokens = inner ++ [last] ∧ shape inner

section Shapes

variable {first second rest : List Token} {token : Token}

theorem Inline.append (hFirst : Inline first) (hSecond : Inline second) :
    Inline (first ++ second) := by
  induction hFirst with
  | nil => exact hSecond
  | plain hToken hRest ih => exact .plain hToken ih
  | group bracket hKind hInner hRest ih => simpa using group bracket hKind hInner ih

theorem Inline.enclosed (hTokens : Inline first) : Enclosed first := by
  induction hTokens with
  | nil => exact .nil
  | plain hToken hRest ih => exact .plain hToken.1 ih
  | group bracket hKind hInner hRest ih => exact .group bracket hInner ih

theorem Ending.enclosed (hTokens : Ending first) : Enclosed first := by
  cases hTokens with
  | stop => exact .plain (by decide) .nil
  | body hInner hRest =>
      refine .group .brace hInner ?_
      rcases hRest with rfl | rfl
      · exact .nil
      · exact .plain (by decide) .nil

theorem Ending.statement (hTokens : Ending first) : Statement first :=
  ⟨[], first, rfl, .nil, hTokens⟩

theorem Statement.enclosed (hTokens : Statement first) : Enclosed first := by
  obtain ⟨inside, ending, rfl, hInside, hEnding⟩ := hTokens
  exact hInside.enclosed.append hEnding.enclosed

theorem Inline.statement (hFirst : Inline first) (hSecond : Statement second) :
    Statement (first ++ second) := by
  obtain ⟨inside, ending, rfl, hInside, hEnding⟩ := hSecond
  exact ⟨first ++ inside, ending, by rw [List.append_assoc], hFirst.append hInside, hEnding⟩

theorem Statement.plain (hToken : token.IsInline) (hRest : Statement rest) :
    Statement (token :: rest) :=
  (Inline.plain hToken .nil).statement hRest

theorem IsMember.of_keyword {keyword : Keyword} (hFirst : Keyword.ofToken? token = some keyword)
    (hRest : Statement rest) : IsMember token rest :=
  .inr ⟨Keyword.isWordLike_of_ofToken? hFirst, hRest⟩

theorem IsMember.enclosed (hMember : IsMember token rest) : Enclosed (token :: rest) := by
  rcases hMember with ⟨rfl, rfl⟩ | ⟨hToken, hRest⟩
  · exact .plain (by decide) .nil
  · exact .plain (Token.isInline_of_isWordLike hToken).1 hRest.enclosed

/-- A bracket is closed by the token at the end. -/
theorem EndsWith.enclosed (bracket : Bracket) (hFirst : EndsWith bracket.closing Enclosed first)
    (hRest : Enclosed rest) : Enclosed (bracket.opening :: (first ++ rest)) := by
  obtain ⟨inner, rfl, hInner⟩ := hFirst
  simpa using Enclosed.group bracket hInner hRest

theorem EndsWith.inline (bracket : Bracket) (hKind : bracket ≠ .brace)
    (hFirst : EndsWith bracket.closing Enclosed first) (hRest : Inline rest) :
    Inline (bracket.opening :: (first ++ rest)) := by
  obtain ⟨inner, rfl, hInner⟩ := hFirst
  simpa using Inline.group bracket hKind hInner hRest

/-- A statement ends with a body that a closing brace ends, and a semicolon may follow. -/
theorem EndsWith.ending (hFirst : EndsWith Token.closeBrace Enclosed first)
    (hRest : rest = [] ∨ rest = [";"]) : Ending (Token.openBrace :: (first ++ rest)) := by
  obtain ⟨inner, rfl, hInner⟩ := hFirst
  simpa using Ending.body hInner hRest

/-- A list that a semicolon ends is a statement. -/
theorem EndsWith.statement (hFirst : EndsWith ";" Inline first) : Statement first := by
  obtain ⟨inner, rfl, hInner⟩ := hFirst
  exact ⟨inner, [";"], rfl, hInner, .stop⟩

end Shapes
end ProtoIdl
