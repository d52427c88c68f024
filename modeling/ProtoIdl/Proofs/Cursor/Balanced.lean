import ProtoIdl.Proofs.Parser.Block

/-!
# Braces that match

A list of tokens is `Balanced` when its braces match and none is left over; other brackets do
not count.  `Cursor.splitBlock?` counts braces, and what it finds is the one balanced list that
stands before a closing brace.  In a balanced list every opening brace has its match, whatever
is before it: this is what keeps a block inside another from running out of tokens.
-/

namespace ProtoIdl

/-- Every brace has its match among these tokens. -/
inductive Balanced : List Token → Prop where
  | nil : Balanced []
  | plain {token : Token} {rest : List Token} (hOpen : token ≠ Token.openBrace)
      (hClose : token ≠ Token.closeBrace) (hRest : Balanced rest) : Balanced (token :: rest)
  | group {inner rest : List Token} (hInner : Balanced inner) (hRest : Balanced rest) :
      Balanced (Token.openBrace :: (inner ++ Token.closeBrace :: rest))

/-- An element of a list that has a mark in it stands before the mark, is the mark, or stands
behind it. -/
theorem cases_of_append_eq {before rest inner tail : List Token} {token mark : Token}
    (hTokens : before ++ token :: rest = inner ++ mark :: tail) :
    (∃ middle, inner = before ++ token :: middle ∧ rest = middle ++ mark :: tail) ∨
      (before = inner ∧ token = mark) ∨
        ∃ middle, before = inner ++ mark :: middle ∧ tail = middle ++ token :: rest := by
  rcases List.append_eq_append_iff.mp hTokens with
    ⟨middle, hInner, hBehind⟩ | ⟨middle, hBefore, hBehind⟩
  · cases middle with
    | nil =>
        rw [List.append_nil] at hInner
        exact .inr (.inl ⟨hInner.symm, (List.cons.inj hBehind).1⟩)
    | cons first middle =>
        obtain ⟨rfl, hRest⟩ := List.cons.inj hBehind
        exact .inl ⟨middle, hInner, hRest⟩
  · cases middle with
    | nil =>
        rw [List.append_nil] at hBefore
        exact .inr (.inl ⟨hBefore, (List.cons.inj hBehind).1.symm⟩)
    | cons first middle =>
        obtain ⟨rfl, hTail⟩ := List.cons.inj hBehind
        exact .inr (.inr ⟨middle, hBefore, hTail⟩)

namespace Balanced

/-- The search for the end of a block passes over balanced tokens. -/
theorem whole {tokens : List Token} (hBalanced : Balanced tokens) : Cursor.Whole tokens := by
  induction hBalanced with
  | nil => exact .nil
  | plain hOpen hClose hRest ih => exact .cons hOpen hClose ih
  | @group inner rest hInner hRest ihInner ihRest =>
      have hBoth := ihInner.braced.append ihRest
      simpa using hBoth

/-- An opening brace has its match behind it, and what is between them is balanced. -/
theorem exists_match {before rest : List Token}
    (hBalanced : Balanced (before ++ Token.openBrace :: rest)) :
    ∃ block later, rest = block ++ Token.closeBrace :: later ∧ Balanced block := by
  have hNe : Token.openBrace ≠ Token.closeBrace := by decide
  generalize hTokens : before ++ Token.openBrace :: rest = tokens at hBalanced
  induction hBalanced generalizing before rest with
  | nil => simp at hTokens
  | @plain token tail hOpen hClose hTail ih =>
      cases before with
      | nil => exact absurd (List.cons.inj hTokens).1.symm hOpen
      | cons first before => exact ih (List.cons.inj hTokens).2
  | @group inner tail hInner hTail ihInner ihTail =>
      cases before with
      | nil => exact ⟨inner, tail, (List.cons.inj hTokens).2, hInner⟩
      | cons first before =>
          -- the brace stands in the group or behind it, for it does not close the group
          rcases cases_of_append_eq (List.cons.inj hTokens).2 with
            ⟨middle, hSplit, rfl⟩ | ⟨-, hSame⟩ | ⟨middle, -, hSplit⟩
          · obtain ⟨block, later, rfl, hBlock⟩ := ihInner hSplit.symm
            exact ⟨block, later ++ Token.closeBrace :: tail, by simp, hBlock⟩
          · exact absurd hSame hNe
          · exact ihTail hSplit.symm

/-- As many braces are closed as are opened. -/
theorem count_eq {tokens : List Token} (hBalanced : Balanced tokens) :
    tokens.count Token.closeBrace = tokens.count Token.openBrace := by
  have hNe : Token.openBrace ≠ Token.closeBrace := by decide
  induction hBalanced with
  | nil => rfl
  | plain hOpen hClose hRest ih =>
      rw [List.count_cons_of_ne hOpen, List.count_cons_of_ne hClose, ih]
  | group hInner hRest ihInner ihRest =>
      simp only [List.count_cons_self, List.count_cons_of_ne hNe, List.count_cons_of_ne hNe.symm,
        List.count_append]
      omega

/-- Before a closing brace, more braces have been opened than closed. -/
theorem count_lt {before rest : List Token}
    (hBalanced : Balanced (before ++ Token.closeBrace :: rest)) :
    before.count Token.closeBrace < before.count Token.openBrace := by
  have hNe : Token.openBrace ≠ Token.closeBrace := by decide
  generalize hTokens : before ++ Token.closeBrace :: rest = tokens at hBalanced
  induction hBalanced generalizing before rest with
  | nil => simp at hTokens
  | @plain token tail hOpen hClose hTail ih =>
      cases before with
      | nil => exact absurd (List.cons.inj hTokens).1.symm hClose
      | cons first before =>
          obtain ⟨rfl, hTail⟩ := List.cons.inj hTokens
          rw [List.count_cons_of_ne hOpen, List.count_cons_of_ne hClose]
          exact ih hTail
  | @group inner tail hInner hTail ihInner ihTail =>
      have hEqual := hInner.count_eq
      cases before with
      | nil => exact absurd (List.cons.inj hTokens).1.symm hNe
      | cons first before =>
          obtain ⟨rfl, hInside⟩ := List.cons.inj hTokens
          rw [List.count_cons_self, List.count_cons_of_ne hNe]
          rcases cases_of_append_eq hInside with
            ⟨middle, hSplit, -⟩ | ⟨rfl, -⟩ | ⟨middle, rfl, hSplit⟩
          · have hLess := ihInner hSplit.symm
            omega
          · omega
          · have hLess := ihTail hSplit.symm
            rw [List.count_append, List.count_append, List.count_cons_self,
              List.count_cons_of_ne hNe.symm]
            omega

/-- Of the slices up to a closing brace that close as many braces as they open, the balanced one
is the shortest. -/
theorem length_le {block later other behind : List Token} (hBlock : Balanced block)
    (hSame : other ++ Token.closeBrace :: behind = block ++ Token.closeBrace :: later)
    (hCount : other.count Token.closeBrace = other.count Token.openBrace) :
    block.length ≤ other.length := by
  rcases cases_of_append_eq hSame with ⟨middle, rfl, -⟩ | ⟨rfl, -⟩ | ⟨middle, rfl, -⟩
  · have hLess := hBlock.count_lt
    omega
  · exact Nat.le_refl _
  · simp

end Balanced

/-! ## What the search finds -/

/-- These tokens close `outer` blocks that were opened before them; between the braces that do
so, every brace has its match. -/
def Unwinds : Nat → List Token → Prop
  | 0, tokens => Balanced tokens
  | outer + 1, tokens => ∃ first rest, tokens = first ++ Token.closeBrace :: rest ∧
      Balanced first ∧ Unwinds outer rest

namespace Unwinds

variable {outer : Nat} {rest : List Token}

theorem close (hRest : Unwinds outer rest) : Unwinds (outer + 1) (Token.closeBrace :: rest) :=
  ⟨[], rest, rfl, .nil, hRest⟩

theorem plain {token : Token} (hOpen : token ≠ Token.openBrace)
    (hClose : token ≠ Token.closeBrace) (hRest : Unwinds outer rest) :
    Unwinds outer (token :: rest) := by
  cases outer with
  | zero => exact .plain hOpen hClose hRest
  | succ outer =>
      obtain ⟨first, behind, rfl, hFirst, hBehind⟩ := hRest
      exact ⟨token :: first, behind, rfl, .plain hOpen hClose hFirst, hBehind⟩

/-- An opening brace takes the first closing one for itself. -/
theorem opening (hRest : Unwinds (outer + 1) rest) : Unwinds outer (Token.openBrace :: rest) := by
  obtain ⟨inner, behind, rfl, hInner, hBehind⟩ := hRest
  cases outer with
  | zero => exact .group hInner hBehind
  | succ outer =>
      obtain ⟨first, last, rfl, hFirst, hLast⟩ := hBehind
      refine ⟨Token.openBrace :: (inner ++ Token.closeBrace :: first), last, ?_, ?_, hLast⟩
      · simp
      · exact .group hInner hFirst

end Unwinds

namespace Cursor

theorem unwinds_of_splitBlock? {outer : Nat} {tokens block later : List Token}
    (hSplit : splitBlock? outer tokens = some (block, later)) : Unwinds outer block := by
  fun_induction splitBlock? outer tokens generalizing block with
  | case1 => cases hSplit
  | case2 rest =>
      -- the closing brace of the block itself
      cases hSplit
      exact Balanced.nil
  | case3 rest outer ih =>
      -- the closing brace of an inner block
      obtain ⟨parts, hParts, hPair⟩ := Option.map_eq_some_iff.mp hSplit
      cases hPair
      exact (ih hParts).close
  | case4 outer token rest hClose ih =>
      -- an opening brace, or a token that is no brace
      obtain ⟨parts, hParts, hPair⟩ := Option.map_eq_some_iff.mp hSplit
      cases hPair
      by_cases hOpen : token = Token.openBrace
      · subst hOpen
        rw [if_pos rfl] at ih hParts
        exact (ih hParts).opening
      · rw [if_neg hOpen] at ih hParts
        exact (ih hParts).plain hOpen hClose

/-- The search finds the balanced tokens before a closing brace. -/
theorem splitBlock?_eq_some_iff {tokens block later : List Token} :
    splitBlock? 0 tokens = some (block, later) ↔
      tokens = block ++ Token.closeBrace :: later ∧ Balanced block := by
  constructor
  · intro hSplit
    constructor
    · exact append_of_splitBlock? hSplit
    · exact unwinds_of_splitBlock? hSplit
  · rintro ⟨rfl, hBlock⟩
    exact splitBlock?_of_whole hBlock.whole

/-- The search fails when no balanced tokens stand before a closing brace. -/
theorem splitBlock?_eq_none_iff {tokens : List Token} :
    splitBlock? 0 tokens = none ↔
      ∀ block later, tokens = block ++ Token.closeBrace :: later → ¬Balanced block := by
  rw [Option.eq_none_iff_forall_ne_some]
  constructor
  · intro hNone block later hTokens hBlock
    exact hNone (block, later) (splitBlock?_eq_some_iff.mpr ⟨hTokens, hBlock⟩)
  · rintro hNone ⟨block, later⟩ hSplit
    obtain ⟨hTokens, hBlock⟩ := splitBlock?_eq_some_iff.mp hSplit
    exact hNone block later hTokens hBlock

end Cursor
end ProtoIdl
