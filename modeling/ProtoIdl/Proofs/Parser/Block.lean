import ProtoIdl.Proofs.Parser.Reading

/-!
# Blocks of whole tokens

`Whole tokens` says that the search for a closing brace passes over `tokens` without
stopping in them and without counting them: every brace in them has its partner in them.
Such tokens between braces are one block for `Cursor.splitBlock?`, and a parser reads them
there as it does alone.
-/

namespace ProtoIdl
namespace Cursor

/-- A token that is no brace is passed over. -/
theorem splitBlock?_cons_of_ne {inner : Nat} {token : Token} {rest : List Token}
    (hOpen : token ≠ Token.openBrace) (hClose : token ≠ Token.closeBrace) :
    splitBlock? inner (token :: rest) =
      (splitBlock? inner rest).map fun parts => (token :: parts.1, parts.2) := by
  rw [splitBlock?.eq_def]
  simp only [if_neg hOpen, if_neg hClose]

/-- An opening brace starts an inner block. -/
theorem splitBlock?_open {inner : Nat} {rest : List Token} :
    splitBlock? inner (Token.openBrace :: rest) =
      (splitBlock? (inner + 1) rest).map fun parts => (Token.openBrace :: parts.1, parts.2) := by
  have hNe : Token.openBrace ≠ Token.closeBrace := by decide
  rw [splitBlock?.eq_def]
  simp only [if_neg hNe, if_true]

/-- A closing brace ends the innermost block that is open. -/
theorem splitBlock?_close {inner : Nat} {rest : List Token} :
    splitBlock? (inner + 1) (Token.closeBrace :: rest) =
      (splitBlock? inner rest).map fun parts => (Token.closeBrace :: parts.1, parts.2) := by
  rw [splitBlock?.eq_def]
  simp only [if_true]

/-- A closing brace outside of the inner blocks ends the block itself. -/
theorem splitBlock?_done {rest : List Token} :
    splitBlock? 0 (Token.closeBrace :: rest) = some ([], rest) := by
  rw [splitBlock?.eq_def]
  simp only [if_true]

/-- The search for the end of a block passes over these tokens. -/
def Whole (tokens : List Token) : Prop :=
  ∀ inner rest, splitBlock? inner (tokens ++ rest) =
    (splitBlock? inner rest).map fun parts => (tokens ++ parts.1, parts.2)

namespace Whole

theorem nil : Whole [] := by
  intro inner rest
  cases hSplit : splitBlock? inner rest <;> simp [hSplit]

/-- A token that is no brace is passed over. -/
theorem cons {token : Token} {tokens : List Token} (hOpen : token ≠ Token.openBrace)
    (hClose : token ≠ Token.closeBrace) (hTokens : Whole tokens) : Whole (token :: tokens) := by
  intro inner rest
  rw [List.cons_append, splitBlock?_cons_of_ne hOpen hClose, hTokens inner rest]
  cases splitBlock? inner rest <;> rfl

theorem append {first second : List Token} (hFirst : Whole first) (hSecond : Whole second) :
    Whole (first ++ second) := by
  intro inner rest
  rw [List.append_assoc, hFirst inner, hSecond inner]
  cases splitBlock? inner rest <;> simp

theorem flatMap {tokens : ξ → List Token} {items : List ξ}
    (hItems : ∀ x ∈ items, Whole (tokens x)) : Whole (items.flatMap tokens) := by
  induction items with
  | nil => exact nil
  | cons x rest ih =>
      rw [List.flatMap_cons]
      exact (hItems x (by simp)).append (ih fun y hy => hItems y (by simp [hy]))

/-- A braced block is passed over as a whole. -/
theorem braced {inner : List Token} (hInner : Whole inner) :
    Whole (Token.openBrace :: (inner ++ [Token.closeBrace])) := by
  intro count rest
  rw [List.cons_append, splitBlock?_open, List.append_assoc, hInner, List.cons_append,
    List.nil_append, splitBlock?_close]
  cases splitBlock? count rest <;> simp

end Whole

/-- The block after an opening brace is what stands before its closing brace. -/
theorem splitBlock?_of_whole {block later : List Token} (hBlock : Whole block) :
    splitBlock? 0 (block ++ Token.closeBrace :: later) = some (block, later) := by
  rw [hBlock, splitBlock?_done]
  simp

/-- A step of the search adds its token to the block. -/
theorem eq_of_map_cons {found : Option (List Token × List Token)} {token : Token}
    {block later : List Token}
    (hFound : (found.map fun parts => (token :: parts.1, parts.2)) = some (token :: block, later)) :
    found = some (block, later) := by
  obtain ⟨⟨first, second⟩, rfl, hPair⟩ := Option.map_eq_some_iff.mp hFound
  cases hPair
  rfl

/-- The search passes over what is a block before a closing brace, and back to the inner blocks
that were open before it. -/
theorem splitBlock?_append_of_block {outer : Nat} {block : List Token}
    (hSplit : splitBlock? outer (block ++ [Token.closeBrace]) = some (block, []))
    (inner : Nat) (rest : List Token) :
    splitBlock? (outer + inner) (block ++ rest) =
      (splitBlock? inner rest).map fun parts => (block ++ parts.1, parts.2) := by
  induction block generalizing outer with
  | nil =>
      cases outer with
      | zero =>
          rw [Nat.zero_add]
          exact Whole.nil inner rest
      | succ outer =>
          rw [List.nil_append, splitBlock?_close] at hSplit
          cases hSplit
  | cons token block ih =>
      rw [List.cons_append] at hSplit ⊢
      have hMap : ∀ found : Option (List Token × List Token),
          (found.map fun parts => (token :: block ++ parts.1, parts.2)) =
            (found.map fun parts => (block ++ parts.1, parts.2)).map
              fun parts => (token :: parts.1, parts.2) := by
        intro found
        rw [Option.map_map]
        rfl
      rw [hMap]
      by_cases hClose : token = Token.closeBrace
      · subst hClose
        cases outer with
        | zero =>
            rw [splitBlock?_done] at hSplit
            cases hSplit
        | succ outer =>
            rw [splitBlock?_close] at hSplit
            rw [Nat.add_right_comm, splitBlock?_close, ih (eq_of_map_cons hSplit)]
      · by_cases hOpen : token = Token.openBrace
        · subst hOpen
          rw [splitBlock?_open] at hSplit
          rw [splitBlock?_open, Nat.add_right_comm, ih (eq_of_map_cons hSplit)]
        · rw [splitBlock?_cons_of_ne hOpen hClose] at hSplit
          rw [splitBlock?_cons_of_ne hOpen hClose, ih (eq_of_map_cons hSplit)]

/-- Tokens that are a block before a closing brace are whole. -/
theorem whole_of_splitBlock? {block : List Token}
    (hSplit : splitBlock? 0 (block ++ [Token.closeBrace]) = some (block, [])) : Whole block := by
  intro inner rest
  have hAppend := splitBlock?_append_of_block hSplit inner rest
  rwa [Nat.zero_add] at hAppend

end Cursor

/-- A parser reads the inside of a block when it reads these tokens to their end, one level
down. -/
theorem Parser.reads_inside {levels : Nat} {body : Parser α} {value : α}
    {block later : List Token} (hBlock : Cursor.Whole block)
    (hBody : body.Reads levels block value []) (context : String) :
    (inside context body).Reads (levels + 1) (block ++ Token.closeBrace :: later) value later := by
  intro cursor hAhead hLevels
  obtain ⟨taken, hTaken⟩ : ∃ taken : Cursor,
      taken = ⟨cursor.index, [], block, cursor.depth, cursor.limit⟩ := ⟨_, rfl⟩
  obtain ⟨after, hAfter⟩ : ∃ after : Cursor, after = { cursor with
      seen := Token.closeBrace :: (block.reverse ++ cursor.seen)
      rest := later } := ⟨_, rfl⟩
  have hTake : (takeBlock context).run cursor = .ok taken after := by
    simp only [takeBlock, hAhead, Cursor.splitBlock?_of_whole hBlock, hTaken, hAfter]
  have hEnter : taken.enter = .ok { taken with depth := taken.depth + 1 } := by
    rw [Cursor.enter, if_pos (by simp only [hTaken]; omega)]
  obtain ⟨last, hRun, -, -⟩ := hBody { taken with depth := taken.depth + 1 }
    (by simp only [hTaken]) (by simp only [hTaken]; omega)
  refine ⟨after, ?_, ?_, ?_⟩
  · simp only [inside, hTake, hEnter, hRun]
  · rw [hAfter]
  · rw [hAfter]

end ProtoIdl
