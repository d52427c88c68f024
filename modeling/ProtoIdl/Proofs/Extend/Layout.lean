import ProtoIdl.Grammar.Message
import ProtoIdl.Proofs.Bracket.Word

/-!
# Where the tokens of a file stand

A `Layout` tells, from the tokens before one, in the bodies of which messages and `extend`
blocks it stands, how many other brackets are open around it, and whether it is the first of a
member.  `Layout.admits` checks with it that no body of an `extend` block has a member that is
not a field: none starts with the keyword of another kind of member.

The tokens of a statement leave the layout at the start of the next one, whatever they are
(`Layout.reads_member`), so what is admitted is decided by the first tokens of members.
-/

namespace ProtoIdl

open Grammar (BlockKind)

/-- Where a token stands. -/
structure Layout where
  /-- The bodies of messages and of `extend` blocks around it, the innermost first. -/
  bodies : List BlockKind
  /-- The number of brackets around it that were opened since then. -/
  depth : Nat
  /-- The first token of its member, unless it is that itself. -/
  first : Option Token

/-- A keyword whose members are no fields. -/
def Keyword.isForeign : Keyword → Bool
  | message | enum | extend | extensions | reserved | option => true
  | _ => false

/-- A token that starts a member other than a field. -/
def Token.isForeign (token : Token) : Bool :=
  (Keyword.ofToken? token).any Keyword.isForeign

namespace Layout

/-- The start of a member in these bodies. -/
def start (bodies : List BlockKind) : Layout :=
  ⟨bodies, 0, none⟩

/-- The layout after an opening bracket.  A brace after the keyword of a block opens the body
of that. -/
def afterOpening (layout : Layout) (bracket : Bracket) : Layout :=
  match layout.depth, bracket, layout.first.bind BlockKind.ofToken? with
  | 0, .brace, some kind => start (kind :: layout.bodies)
  | _, _, _ => { layout with depth := layout.depth + 1 }

/-- The layout after a closing bracket.  A brace ends the body around it, or the member whose
braces these are. -/
def afterClosing (layout : Layout) (bracket : Bracket) : Layout :=
  match layout.depth, bracket with
  | 0, _ => start layout.bodies.tail
  | 1, .brace => start layout.bodies
  | depth + 1, _ => { layout with depth := depth }

/-- The layout after a token.  Comments are passed over, and a semicolon outside of brackets
ends a member. -/
def next (layout : Layout) (token : Token) : Layout :=
  match Bracket.openedBy? token, Bracket.closedBy? token with
  | some bracket, _ => layout.afterOpening bracket
  | none, some bracket => layout.afterClosing bracket
  | none, none =>
      if token.isComment ∨ layout.depth ≠ 0 then layout
      else if token = ";" then start layout.bodies
      else { layout with first := layout.first.or (some token) }

/-- Whether a token starts a member of an `extend` block that is no field. -/
def strays (layout : Layout) (token : Token) : Bool :=
  layout.depth == 0 && layout.first.isNone && layout.bodies.head? == some .extend &&
    token.isForeign

/-- The layout after tokens. -/
def after (layout : Layout) (tokens : List Token) : Layout :=
  tokens.foldl next layout

/-- Whether every member of an `extend` block among the tokens is a field. -/
def admits : Layout → List Token → Bool
  | _, [] => true
  | layout, token :: rest => !layout.strays token && admits (layout.next token) rest

theorem admits_append (layout : Layout) (first second : List Token) :
    layout.admits (first ++ second) =
      (layout.admits first && (layout.after first).admits second) := by
  induction first generalizing layout with
  | nil => rfl
  | cons token rest ih => rw [List.cons_append, admits, admits, ih, Bool.and_assoc]; rfl

theorem after_append (layout : Layout) (first second : List Token) :
    layout.after (first ++ second) = (layout.after first).after second :=
  List.foldl_append

/-- The tokens are admitted, and lead from one layout to the other. -/
structure Passes (layout : Layout) (tokens : List Token) (later : Layout) : Prop where
  admits : layout.admits tokens = true
  after : layout.after tokens = later

namespace Passes

variable {layout between later : Layout} {first second : List Token}

theorem nil (layout : Layout) : layout.Passes [] layout :=
  ⟨rfl, rfl⟩

theorem append (hFirst : layout.Passes first between) (hSecond : between.Passes second later) :
    layout.Passes (first ++ second) later := by
  refine ⟨?_, ?_⟩
  · rw [admits_append, hFirst.admits, hFirst.after, hSecond.admits]
    rfl
  · rw [after_append, hFirst.after, hSecond.after]

/-- One token, and then others. -/
theorem cons {token : Token} (hToken : layout.strays token = false)
    (hNext : (layout.next token).Passes second later) : layout.Passes (token :: second) later := by
  refine ⟨?_, hNext.after⟩
  rw [Layout.admits, hToken, hNext.admits]
  rfl

end Passes

variable {bodies : List BlockKind} {depth : Nat} {first : Option Token} {tokens : List Token}

/-! ## Brackets -/

theorem next_opening (layout : Layout) (bracket : Bracket) :
    layout.next bracket.opening = layout.afterOpening bracket := by
  rw [next, Bracket.openedBy?_opening]

theorem next_closing (layout : Layout) (bracket : Bracket) :
    layout.next bracket.closing = layout.afterClosing bracket := by
  rw [next, Bracket.openedBy?_closing, Bracket.closedBy?_closing]

theorem next_plain {token : Token} (hToken : token.isBracket = false) (layout : Layout) :
    layout.next token =
      if token.isComment ∨ layout.depth ≠ 0 then layout
      else if token = ";" then start layout.bodies
      else { layout with first := layout.first.or (some token) } := by
  obtain ⟨hOpened, hClosed⟩ := Token.isBracket_eq_false_iff.mp hToken
  rw [next, hOpened, hClosed]

/-- Inside of brackets nothing strays. -/
theorem strays_of_depth (token : Token) : strays ⟨bodies, depth + 1, first⟩ token = false := by
  simp [strays]

/-- Nothing strays but the first token of a member. -/
theorem strays_of_first (head token : Token) :
    strays ⟨bodies, depth, some head⟩ token = false := by
  simp [strays]

theorem strays_of_not_foreign {token : Token} (hToken : token.isForeign = false)
    (layout : Layout) : layout.strays token = false := by
  rw [strays, hToken, Bool.and_false]

/-- Enclosed tokens inside of brackets are passed over. -/
theorem passes_enclosed (hTokens : Enclosed tokens) (depth : Nat) :
    Passes ⟨bodies, depth + 1, first⟩ tokens ⟨bodies, depth + 1, first⟩ := by
  induction hTokens generalizing depth with
  | nil => exact .nil _
  | plain hToken hRest ih =>
      refine .cons (strays_of_depth _) ?_
      rw [next_plain hToken, if_pos (.inr (by simp))]
      exact ih depth
  | group bracket hInner hRest ihInner ihRest =>
      refine .cons (strays_of_depth _) ?_
      rw [next_opening]
      refine .append (ihInner (depth + 1)) (.cons (strays_of_depth _) ?_)
      rw [next_closing]
      exact ihRest depth

/-! ## Members -/

/-- A comment is no keyword. -/
theorem isForeign_of_isComment {token : Token} (hToken : token.isComment = true) :
    token.isForeign = false := by
  unfold Token.isForeign
  cases hKeyword : Keyword.ofToken? token with
  | none => rfl
  | some keyword =>
      have hWord := Keyword.isWordLike_of_ofToken? hKeyword
      rw [Token.isWordLike, hToken] at hWord
      simp at hWord

theorem passes_comments {comments : List Token}
    (hComments : ∀ token ∈ comments, token.isComment = true) (layout : Layout) :
    layout.Passes comments layout := by
  induction comments with
  | nil => exact .nil layout
  | cons comment rest ih =>
      obtain ⟨hComment, hRest⟩ := List.forall_mem_cons.mp hComments
      refine .cons (strays_of_not_foreign (isForeign_of_isComment hComment) layout) ?_
      rw [next_plain (Token.isInline_of_isComment hComment).1, if_pos (.inl hComment)]
      exact ih hRest

/-- Inside of a member, inline tokens are passed over. -/
theorem passes_inline (hTokens : Inline tokens) (head : Token) :
    Passes ⟨bodies, 0, some head⟩ tokens ⟨bodies, 0, some head⟩ := by
  induction hTokens with
  | nil => exact .nil _
  | plain hToken hRest ih =>
      refine .cons (strays_of_first _ _) ?_
      rw [next_plain hToken.1, if_neg hToken.2]
      split <;> exact ih
  | group bracket hKind hInner hRest ih =>
      have hOpening : afterOpening ⟨bodies, 0, some head⟩ bracket = ⟨bodies, 1, some head⟩ := by
        cases bracket <;> first | exact absurd rfl hKind | rfl
      have hClosing : afterClosing ⟨bodies, 1, some head⟩ bracket = ⟨bodies, 0, some head⟩ := by
        cases bracket <;> first | exact absurd rfl hKind | rfl
      refine .cons (strays_of_first _ _) ?_
      rw [next_opening, hOpening]
      refine .append (passes_enclosed hInner 0) (.cons (strays_of_first _ _) ?_)
      rw [next_closing, hClosing]
      exact ih

/-- A semicolon ends a member. -/
theorem passes_semicolon (bodies : List BlockKind) (first : Option Token) :
    Passes ⟨bodies, 0, first⟩ [";"] (start bodies) := by
  have hInside : ¬(Token.isComment ";" = true ∨ 0 ≠ 0) := by decide
  refine .cons (strays_of_not_foreign (by decide) _) ?_
  rw [next_plain (by decide), if_neg hInside, if_pos rfl]
  exact .nil _

/-- The end of a statement leads to the start of the next member. -/
theorem passes_ending {head : Token} (hHead : BlockKind.ofToken? head = none)
    (hTokens : Ending tokens) : Passes ⟨bodies, 0, some head⟩ tokens (start bodies) := by
  cases hTokens with
  | stop => exact passes_semicolon bodies (some head)
  | body hInner hRest =>
      have hOpening : afterOpening ⟨bodies, 0, some head⟩ .brace = ⟨bodies, 1, some head⟩ := by
        simp only [afterOpening, Option.bind_some, hHead]
      refine .cons (strays_of_first _ _) ?_
      rw [← Bracket.opening, next_opening, hOpening]
      refine .append (passes_enclosed hInner 0) (.cons (strays_of_first _ _) ?_)
      rw [← Bracket.closing, next_closing]
      -- a semicolon after the braces is an empty statement of its own
      rcases hRest with rfl | rfl
      · exact .nil _
      · exact passes_semicolon bodies none

/-- A word at the start of a member is the first token of that. -/
theorem next_word {token : Token} (hToken : token.isWordLike = true) :
    (start bodies).next token = ⟨bodies, 0, some token⟩ := by
  have hInline := Token.isInline_of_isWordLike hToken
  have hInside : ¬(token.isComment = true ∨ 0 ≠ 0) := by
    rw [Token.isWordLike, Bool.and_eq_true, Bool.not_eq_true', Bool.not_eq_true'] at hToken
    simp [hToken.2]
  rw [next_plain hInline.1, start, if_neg hInside, if_neg hInline.2]
  rfl

/-- Only the first token of a statement can keep it from being admitted, and the next member
starts after it. -/
theorem reads_member {head : Token} {used : List Token} (hMember : IsMember head used)
    (hKind : BlockKind.ofToken? head = none) (bodies : List BlockKind) :
    (start bodies).admits (head :: used) = !(start bodies).strays head ∧
      (start bodies).after (head :: used) = start bodies := by
  rcases hMember with ⟨rfl, rfl⟩ | ⟨hWord, inside, ending, rfl, hInside, hEnding⟩
  · have hStop := passes_semicolon bodies none
    have hForeign : Token.isForeign ";" = false := by decide
    have hStrays := strays_of_not_foreign hForeign (start bodies)
    exact ⟨by rw [hStrays]; exact hStop.admits, hStop.after⟩
  · -- after the first token nothing strays any more
    have hRest : Passes ⟨bodies, 0, some head⟩ (inside ++ ending) (start bodies) :=
      (passes_inline hInside head).append (passes_ending hKind hEnding)
    rw [admits, after, List.foldl_cons, next_word hWord, hRest.admits, Bool.and_true]
    exact ⟨rfl, hRest.after⟩

/-- What a block has in its body decides together with its keyword, and the next member starts
after it. -/
theorem reads_block {kind : BlockKind} {keyword name : Token} {inner : List Token}
    (hKind : BlockKind.ofToken? keyword = some kind) (hWord : keyword.isWordLike = true)
    (hName : name.isWordLike = true)
    (hInner : (start (kind :: bodies)).after inner = start (kind :: bodies)) :
    (start bodies).admits (keyword :: name :: Token.openBrace :: (inner ++ [Token.closeBrace])) =
        (!(start bodies).strays keyword && (start (kind :: bodies)).admits inner) ∧
      (start bodies).after (keyword :: name :: Token.openBrace :: (inner ++ [Token.closeBrace])) =
        start bodies := by
  have hNamed : Passes ⟨bodies, 0, some keyword⟩ [name] ⟨bodies, 0, some keyword⟩ :=
    passes_inline (.plain (Token.isInline_of_isWordLike hName) .nil) keyword
  have hOpening : next ⟨bodies, 0, some keyword⟩ Token.openBrace = start (kind :: bodies) := by
    rw [← Bracket.opening, next_opening]
    simp only [afterOpening, Option.bind_some, hKind]
  have hClosing : next (start (kind :: bodies)) Token.closeBrace = start bodies := by
    rw [← Bracket.closing, next_closing]
    rfl
  have hBefore : Passes ⟨bodies, 0, some keyword⟩ [name, Token.openBrace]
      (start (kind :: bodies)) :=
    hNamed.append (.cons (strays_of_first _ _) (hOpening ▸ .nil _))
  have hAfter : Passes (start (kind :: bodies)) [Token.closeBrace] (start bodies) :=
    .cons (strays_of_not_foreign (by decide) _) (hClosing ▸ .nil _)
  have hBody : name :: Token.openBrace :: (inner ++ [Token.closeBrace]) =
      [name, Token.openBrace] ++ (inner ++ [Token.closeBrace]) := rfl
  rw [admits, after, List.foldl_cons, next_word hWord, ← after, hBody, admits_append, after_append,
    hBefore.admits, hBefore.after, admits_append, after_append, hInner, hAfter.admits, hAfter.after,
    Bool.true_and, Bool.and_true]
  exact ⟨rfl, rfl⟩

end Layout
end ProtoIdl
