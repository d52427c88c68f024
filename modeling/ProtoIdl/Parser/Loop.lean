import ProtoIdl.Parser.Primitive

/-!
# Lists of items

A loop reads items until the head of an item says that there are no more.  It ends
because a head takes at least one token of the item that it announces.  `loop_eq`
says what a loop does in terms of one round of it.
-/

namespace ProtoIdl
namespace Parser

/-! ## Loops -/

/-- The head of an item: it announces one more item and takes at least one token of
it, or it says that there are no more. -/
structure Head (η : Type) extends Parser (Option η) where
  progress : toParser.Consumes fun found => found.isSome

/-- Read items from a cursor until the head finds no more. -/
def loopFrom (head : Head η) (item : σ → η → Parser σ) (state : σ) (cursor : Cursor) :
    Reply σ :=
  match _hHead : head.run cursor with
  | .error fault after => .error fault after
  | .ok none after => .ok state after
  | .ok (some found) between =>
      match _hItem : (item state found).run between with
      | .error fault after => .error fault after
      | .ok state after => loopFrom head item state after
termination_by cursor.left
decreasing_by
  exact Nat.lt_of_le_of_lt (onward_of_ok _hItem).left_le
    (head.progress cursor _ _ _hHead rfl)

/-- Read items until the head finds no more.  Each item makes the next state. -/
def loop (head : Head η) (item : σ → η → Parser σ) (state : σ) : Parser σ where
  run := loopFrom head item state
  onward cursor := by
    fun_induction loopFrom head item state cursor with
    | case1 state cursor fault after hHead =>
        have hOnward := head.onward cursor
        rwa [hHead] at hOnward
    | case2 state cursor after hHead =>
        have hOnward := head.onward cursor
        rwa [hHead] at hOnward
    | case3 state cursor found between hHead fault after hItem =>
        have hOnward := (item state found).onward between
        rw [hItem] at hOnward
        exact (onward_of_ok hHead).trans hOnward
    | case4 state cursor found between hHead next after hItem ih =>
        exact ((onward_of_ok hHead).trans (onward_of_ok hItem)).trans ih

/-- One round of a loop: the head, and then the item and the rest of the loop. -/
theorem loop_eq (head : Head η) (item : σ → η → Parser σ) (state : σ) :
    loop head item state =
      (head.toParser >>= fun found =>
        match found with
        | none => pure state
        | some found => item state found >>= loop head item) := by
  ext cursor
  rw [run_bind]
  simp only [loop]
  rw [loopFrom]
  split
  · next hHead => simp [hHead]
  · next hHead => simp [hHead]
  · next hHead =>
      simp only [hHead]
      rw [run_bind]
      split
      · next hItem => simp [hItem]
      · next hItem => simp [hItem, loop]

/-! ## Heads of items -/

/-- The head of a member of a braced list: the comments before it and its first
token.  The closing brace ends the list. -/
def memberHead (context : String) : Head (List String × Token) where
  toParser := do
    let comments ← takeComments
    let token ← next Token.closeBrace context
    return if token = Token.closeBrace then none else some (comments, token)
  progress := .bind_right fun _ => .bind_left (next_consumes _ _)

/-- The head of a statement: the comments before it and its first token.  The end of
the tokens ends the list. -/
def statementHead : Head (List String × Token) where
  toParser := do
    let comments ← takeComments
    let token ← advance
    return token.map fun first => (comments, first)
  progress := .bind_right fun comments => by
    intro cursor value after hRun hSome
    obtain ⟨token, between, hToken, hMap⟩ := run_bind_eq_ok_iff.mp hRun
    cases hMap
    exact advance_consumes cursor _ _ hToken (by simpa using hSome)

/-- The head of a further item of a list with commas: the comma.  The token `close`
ends the list. -/
def commaHead (close : Token) (context : String) : Head Unit where
  toParser := do
    let token ← next close context
    if token = "," then return some ()
    else if token = close then return none
    else rejectLast context
  progress := .bind_left (next_consumes _ _)

/-- Read one or more items with commas between them, up to and including `close`. -/
def commaList (close : Token) (context : String) (item : σ → Parser σ) (state : σ) :
    Parser σ := do
  let first ← item state
  loop (commaHead close context) (fun state _ => item state) first

end Parser
end ProtoIdl
