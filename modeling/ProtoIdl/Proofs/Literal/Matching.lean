import ProtoIdl.Parser.Loop
import ProtoIdl.Proofs.Literal.Closing
import ProtoIdl.Proofs.Parser.Duplicate
import ProtoIdl.Proofs.Parser.Running

/-!
# Two runs, with open and with closed literals

`parser.Matched other related cursor` compares the run of `parser` from `cursor` with the run of
`other` over the same tokens with their literals closed.  Both answer values that are related,
at the same place, or both fail with the same error.  What is not compared is a run that stops
at a name given twice: an open literal and a closed one are two names, and with all literals
closed they may be one.

The comparison is kept by composition, and it is proved of the primitive steps, where it comes
down to what is asked of a single token.
-/

namespace ProtoIdl

/-- The same place in the tokens with their literals closed. -/
def Cursor.closed (cursor : Cursor) : Cursor :=
  { cursor with
    seen := cursor.seen.map Token.closed
    rest := cursor.rest.map Token.closed }

/-- What a field declaration leaves out, with the literal that it names closed. -/
def FieldSlot.closed : FieldSlot → FieldSlot
  | .type => .type
  | .name fieldType => .name (Token.closed fieldType)

@[simp] theorem FieldSlot.noun_closed (slot : FieldSlot) : slot.closed.noun = slot.noun := by
  cases slot <;> rfl

/-- The same error with the literal that it names closed. -/
def ParseError.closed : ParseError → ParseError
  | .unexpectedToken found context index => .unexpectedToken found.closed context index
  | .missing slot => .missing slot.closed
  | .invalidNumber literal context => .invalidNumber literal.closed context
  | .unknownVersion found => .unknownVersion found.closed
  | .invalidOptimizeFor found => .invalidOptimizeFor found.closed
  | fault => fault

/-- The answers are related, or the errors are the same, or a name is given twice. -/
inductive Reply.Matches (related : α → β → Prop) : Reply α → Reply β → Prop
  | ok {value : α} {other : β} {cursor : Cursor} (hRelated : related value other) :
      Matches related (.ok value cursor) (.ok other cursor.closed)
  | error {fault other : ParseError} {after last : Cursor} (hClosed : other = fault.closed) :
      Matches related (.error fault after) (.error other last)
  | duplicate {fault : ParseError} {after : Cursor} {reply : Reply β}
      (hDuplicate : fault.IsDuplicate) : Matches related (.error fault after) reply
  | duplicateClosed {fault : ParseError} {after : Cursor} {reply : Reply α}
      (hDuplicate : fault.IsDuplicate) : Matches related reply (.error fault after)

namespace Reply.Matches

variable {related : α → β → Prop} {reply : Reply α} {other : Reply β}

/-- Answers stay related under a weaker relation. -/
theorem mono {weaker : α → β → Prop} (hMatches : reply.Matches related other)
    (hWeaker : ∀ value answer, related value answer → weaker value answer) :
    reply.Matches weaker other := by
  cases hMatches with
  | ok hRelated => exact .ok (hWeaker _ _ hRelated)
  | error hClosed => exact .error hClosed
  | duplicate hDuplicate => exact .duplicate hDuplicate
  | duplicateClosed hDuplicate => exact .duplicateClosed hDuplicate

/-- Both replies go on to matching places. -/
theorem finish {done doneClosed stopped stoppedClosed : Cursor → Cursor}
    (hMatches : reply.Matches related other)
    (hDone : ∀ cursor, doneClosed cursor.closed = (done cursor).closed) :
    (reply.finish done stopped).Matches related (other.finish doneClosed stoppedClosed) := by
  cases hMatches with
  | ok hRelated =>
      simp only [Reply.finish, hDone]
      exact .ok hRelated
  | error hClosed => exact .error hClosed
  | duplicate hDuplicate => exact .duplicate hDuplicate
  | duplicateClosed hDuplicate => exact .duplicateClosed hDuplicate

end Reply.Matches

/-! ## Closed cursors -/

namespace Cursor

@[simp] theorem index_closed (cursor : Cursor) : cursor.closed.index = cursor.index := by
  simp [index, closed]

@[simp] theorem peekNth?_closed (cursor : Cursor) (n : Nat) :
    cursor.closed.peekNth? n = (cursor.peekNth? n).map Token.closed := by
  simp [peekNth?, closed]

@[simp] theorem unexpectedNth_closed (cursor : Cursor) (n : Nat) (context : String) :
    cursor.closed.unexpectedNth n context = (cursor.unexpectedNth n context).closed := by
  have hEmpty : Token.closed "" = "" := by decide
  rw [unexpectedNth, peekNth?_closed, index_closed]
  cases hAhead : cursor.peekNth? n <;> simp [unexpectedNth, ParseError.closed, hAhead, hEmpty]

@[simp] theorem unexpectedLast_closed (cursor : Cursor) (context : String) :
    cursor.closed.unexpectedLast context = (cursor.unexpectedLast context).closed := by
  rcases cursor with ⟨base, seen, rest, depth, limit⟩
  cases seen with
  | nil => exact unexpectedNth_closed _ 0 context
  | cons token before => simp [unexpectedLast, closed, ParseError.closed]

@[simp] theorem stop_closed (cursor : Cursor) : cursor.closed.stop = cursor.stop := by
  simp [stop, left, index, closed]

/-- The search for the end of a block stops at the same brace. -/
theorem splitBlock?_closed (inner : Nat) (tokens : List Token) :
    splitBlock? inner (tokens.map Token.closed) =
      (splitBlock? inner tokens).map
        fun parts => (parts.1.map Token.closed, parts.2.map Token.closed) := by
  have hClose : ∀ token : Token, token.closed = Token.closeBrace ↔ token = Token.closeBrace :=
    fun _ => Token.closed_eq_iff (by decide)
  have hOpen : ∀ token : Token, token.closed = Token.openBrace ↔ token = Token.openBrace :=
    fun _ => Token.closed_eq_iff (by decide)
  induction tokens generalizing inner with
  | nil => simp [splitBlock?]
  | cons token rest ih =>
      rw [List.map_cons, splitBlock?.eq_def, splitBlock?.eq_def inner (token :: rest)]
      simp only [hClose, hOpen, ih]
      split
      · cases inner with
        | zero => rfl
        | succ inner =>
            simp only [Option.map_map]
            rfl
      · simp only [Option.map_map]
        rfl

end Cursor

namespace Parser

/-- The inside of a block has its literals closed. -/
theorem blockCursor_closed (cursor : Cursor) (block : List Token) :
    blockCursor cursor.closed (block.map Token.closed) = (blockCursor cursor block).closed := by
  simp only [blockCursor, Cursor.index_closed]
  rfl

/-- A closing brace is no literal. -/
theorem blockEnd_closed (cursor : Cursor) (block later : List Token) :
    blockEnd cursor.closed (block.map Token.closed) (later.map Token.closed) =
      (blockEnd cursor block later).closed := by
  have hBrace : Token.closeBrace.closed = Token.closeBrace := Token.closed_eq_self (by decide)
  simp [blockEnd, Cursor.closed, hBrace]

/-- From the cursor the parser answers as the other one does with all literals closed. -/
def Matched (parser : Parser α) (other : Parser β) (related : α → β → Prop)
    (cursor : Cursor) : Prop :=
  (parser.run cursor).Matches related (other.run cursor.closed)

/-- Answers that need not be compared. -/
abbrev Any (_ : α) (_ : β) : Prop :=
  True

/-- The second token is the first one with its literal closed. -/
abbrev Closes (token other : Token) : Prop :=
  other = token.closed

namespace Matched

variable {cursor : Cursor}

/-! ## Composition -/

theorem pure {value : α} {other : β} {related : α → β → Prop} (hRelated : related value other) :
    Matched (pure value) (pure other) related cursor :=
  .ok hRelated

theorem fail {related : α → β → Prop} {fault other : ParseError}
    (hClosed : other = fault.closed) : Matched (fail fault) (fail other) related cursor :=
  .error hClosed

theorem mono {parser : Parser α} {other : Parser β} {related weaker : α → β → Prop}
    (hMatched : Matched parser other related cursor)
    (hWeaker : ∀ value answer, related value answer → weaker value answer) :
    Matched parser other weaker cursor :=
  Reply.Matches.mono hMatched hWeaker

/-- The second parts go on from matching places with related values. -/
theorem bind {first : Parser α} {firstOther : Parser β} {second : α → Parser γ}
    {secondOther : β → Parser δ} {middle : α → β → Prop} {related : γ → δ → Prop}
    (hFirst : Matched first firstOther middle cursor)
    (hSecond : ∀ value other between, first.run cursor = .ok value between →
      middle value other → Matched (second value) (secondOther other) related between) :
    Matched (first >>= second) (firstOther >>= secondOther) related cursor := by
  unfold Matched at hFirst ⊢
  rw [run_bind, run_bind]
  cases hRun : first.run cursor with
  | error fault after =>
      rw [hRun] at hFirst
      generalize firstOther.run cursor.closed = reply at hFirst
      cases hFirst with
      | error hClosed => exact .error hClosed
      | duplicate hDuplicate => exact .duplicate hDuplicate
      | duplicateClosed hDuplicate => exact .duplicateClosed hDuplicate
  | ok value between =>
      -- where only the second run stops at a name, there is nothing to compare after it
      rw [hRun] at hFirst
      generalize firstOther.run cursor.closed = reply at hFirst
      cases hFirst with
      | ok hMiddle => exact hSecond value _ between hRun hMiddle
      | duplicateClosed hDuplicate => exact .duplicateClosed hDuplicate

/-- Where only the first values matter. -/
theorem read {first : Parser α} {firstOther : Parser β} {middle : α → β → Prop}
    {build : α → γ} {buildOther : β → δ} {related : γ → δ → Prop}
    (hFirst : Matched first firstOther middle cursor)
    (hBuild : ∀ value other, middle value other → related (build value) (buildOther other)) :
    Matched (first >>= fun value => Pure.pure (build value))
      (firstOther >>= fun value => Pure.pure (buildOther value)) related cursor :=
  hFirst.bind fun value other _ _ hMiddle => .pure (hBuild value other hMiddle)

/-- What only fails at names given twice need not be compared when it fails. -/
theorem ofExcept {result : Except ParseError α} {other : Except ParseError β}
    {related : α → β → Prop}
    (hResult : ∀ fault, result = .error fault → fault.IsDuplicate)
    (hOther : ∀ fault, other = .error fault → fault.IsDuplicate)
    (hRelated : ∀ value answer, result = .ok value → other = .ok answer → related value answer) :
    Matched (Parser.ofExcept result) (Parser.ofExcept other) related cursor := by
  cases result with
  | error fault => exact .duplicate (hResult fault rfl)
  | ok value =>
      cases other with
      | error fault => exact .duplicateClosed (hOther fault rfl)
      | ok answer => exact .ok (hRelated value answer rfl rfl)

/-- A name that may have been given before is not compared where it has been. -/
theorem unless_duplicate {parser : Parser α} {other : Parser β} {related : α → β → Prop}
    {given givenOther : Prop} [Decidable given] [Decidable givenOther] {kind : Binding}
    {name nameOther : String} (hMatched : Matched parser other related cursor) :
    Matched (if given then Parser.fail (.duplicate kind name) else parser)
      (if givenOther then Parser.fail (.duplicate kind nameOther) else other) related cursor := by
  by_cases hGiven : given
  · rw [if_pos hGiven]
    exact .duplicate ⟨_, _, rfl⟩
  · rw [if_neg hGiven]
    by_cases hOther : givenOther
    · rw [if_pos hOther]
      exact .duplicateClosed ⟨_, _, rfl⟩
    · rw [if_neg hOther]
      exact hMatched

/-! ## Single tokens -/

theorem peekNth (n : Nat) :
    Matched (peekNth n) (peekNth n) (fun token other => other = token.map Token.closed)
      cursor :=
  .ok (cursor.peekNth?_closed n)

theorem peek :
    Matched peek peek (fun token other => other = token.map Token.closed) cursor :=
  .peekNth 0

theorem rejectNth {related : α → β → Prop} (n : Nat) (context : String) :
    Matched (rejectNth n context) (rejectNth n context) related cursor :=
  .error (cursor.unexpectedNth_closed n context)

theorem rejectLast {related : α → β → Prop} (context : String) :
    Matched (rejectLast context) (rejectLast context) related cursor :=
  .error (cursor.unexpectedLast_closed context)

theorem rejectEnd {related : α → β → Prop} (expected context : String) :
    Matched (rejectEnd expected context) (rejectEnd expected context) related cursor :=
  .error (by simp [Cursor.unterminated, ParseError.closed])

theorem advance :
    Matched advance advance (fun token other => other = token.map Token.closed) cursor := by
  rcases cursor with ⟨base, seen, rest, depth, limit⟩
  cases rest with
  | nil => exact .ok rfl
  | cons token rest => exact .ok rfl

/-- A class of tokens that a closing quote does not leave. -/
theorem takeIf {accepts : Token → Bool}
    (hAccepts : ∀ token : Token, accepts token.closed = accepts token) :
    Matched (takeIf accepts) (takeIf accepts) (fun token other => other = token.map Token.closed)
      cursor := by
  rcases cursor with ⟨base, seen, rest, depth, limit⟩
  cases rest with
  | nil => exact .ok rfl
  | cons token rest =>
      unfold Matched Parser.takeIf
      simp only [Cursor.closed, List.map_cons, hAccepts]
      split
      · exact .ok rfl
      · exact .ok rfl

/-- A token that does not begin with a quote is eaten in both runs or in none. -/
theorem eat {token : Token} (hToken : token.startsQuoted = false) :
    Matched (eat token) (eat token) Eq cursor := by
  have hAccepts : ∀ next : Token, (next.closed == token) = (next == token) := by
    intro next
    rw [Bool.eq_iff_iff, beq_iff_eq, beq_iff_eq]
    exact Token.closed_eq_iff hToken
  refine (Matched.takeIf hAccepts).read fun taken other hTaken => ?_
  simp [hTaken]

theorem next (expected context : String) :
    Matched (next expected context) (next expected context) Closes cursor := by
  refine Matched.advance.bind fun found other _ _ hFound => ?_
  subst hFound
  cases found with
  | some token => exact .pure rfl
  | none => exact .rejectEnd expected context

theorem expect {token : Token} (hToken : token.startsQuoted = false) (context : String) :
    Matched (expect token context) (expect token context) Eq cursor := by
  refine (Matched.next token context).bind fun found other _ _ hFound => ?_
  subst hFound
  simp only [Token.closed_eq_iff hToken]
  split
  · exact .pure rfl
  · exact .rejectLast context

theorem checkWord (token : Token) (context : String) :
    Matched (checkWord token context) (checkWord token.closed context) Closes cursor := by
  unfold Parser.checkWord
  rw [Token.isWordLike_closed]
  split
  · exact .pure rfl
  · exact .rejectLast context

theorem word (expected context : String) :
    Matched (word expected context) (word expected context) Closes cursor := by
  refine (Matched.next expected context).bind fun found other _ _ hFound => ?_
  subst hFound
  exact .checkWord found context

theorem takeComments : Matched takeComments takeComments Any cursor := by
  have hComments : Token.isComment ∘ Token.closed = Token.isComment :=
    funext Token.isComment_closed
  have hRun : Parser.takeComments.run cursor.closed =
      .ok ((cursor.closed.rest.takeWhile Token.isComment).map Token.commentBody)
        (Cursor.closed { cursor with
          seen := (cursor.rest.takeWhile Token.isComment).reverse ++ cursor.seen
          rest := cursor.rest.dropWhile Token.isComment }) := by
    simp [Parser.takeComments, Cursor.closed, List.takeWhile_map, List.dropWhile_map, hComments]
  unfold Matched
  rw [hRun]
  exact .ok trivial

theorem numeral (interval : Numeral.Interval) (literal : Token) (context : String) :
    Matched (numeral interval literal context) (numeral interval literal.closed context) Eq
      cursor := by
  unfold Parser.numeral
  rw [Token.within?_closed]
  split
  · exact .pure rfl
  · exact .fail rfl

/-! ## Lists of items -/

theorem memberHead (context : String) :
    Matched (memberHead context).toParser (memberHead context).toParser
      (Option.Rel fun head other => other.2 = head.2.closed) cursor := by
  refine Matched.takeComments.bind fun comments others _ _ _ => ?_
  refine (Matched.next _ _).read fun token other hToken => ?_
  subst hToken
  simp only [Token.closed_eq_iff (show Token.startsQuoted Token.closeBrace = false by decide)]
  split
  · exact .none
  · exact .some rfl

theorem statementHead :
    Matched statementHead.toParser statementHead.toParser
      (Option.Rel fun head other => other.2 = head.2.closed) cursor := by
  refine Matched.takeComments.bind fun comments others _ _ _ => ?_
  refine Matched.advance.read fun token other hToken => ?_
  subst hToken
  cases token with
  | none => exact .none
  | some token => exact .some rfl

theorem commaHead {close : Token} (hClose : close.startsQuoted = false) (context : String) :
    Matched (commaHead close context).toParser (commaHead close context).toParser
      (Option.Rel Any) cursor := by
  refine (Matched.next _ _).bind fun token other _ _ hToken => ?_
  subst hToken
  simp only [Token.closed_eq_iff hClose,
    Token.closed_eq_iff (show Token.startsQuoted "," = false by decide)]
  split
  · exact .pure (.some trivial)
  · split
    · exact .pure .none
    · exact .rejectLast context

/-- A loop is matched if its heads and its items are.  The items need to be compared where fewer
tokens are ahead. -/
theorem loop {head : Head η} {headOther : Head θ} {item : σ → η → Parser σ}
    {itemOther : τ → θ → Parser τ} {found : η → θ → Prop} {related : σ → τ → Prop}
    (hHead : ∀ start, Matched head.toParser headOther.toParser (Option.Rel found) start)
    (hItem : ∀ state other first second (start : Cursor), start.left < cursor.left →
      related state other → found first second →
        Matched (item state first) (itemOther other second) related start)
    {state : σ} {other : τ} (hState : related state other) :
    Matched (loop head item state) (loop headOther itemOther other) related cursor := by
  induction hLeft : cursor.left using Nat.strongRecOn generalizing state other cursor with
  | ind left ih =>
      rw [loop_eq, loop_eq]
      refine (hHead cursor).bind fun first second between hRun hFound => ?_
      cases hFound with
      | none => exact .pure hState
      | some hFound =>
          have hLess := head.progress cursor _ between hRun rfl
          refine (hItem state other _ _ between hLess hState hFound).bind
            fun grown grownOther after hItemRun hGrown => ?_
          have hLe := (onward_of_ok hItemRun).left_le
          refine ih after.left (by omega) ?_ hGrown rfl
          exact fun state other first second start hStart =>
            hItem state other first second start (by omega)

theorem commaList {item : σ → Parser σ} {itemOther : τ → Parser τ} {related : σ → τ → Prop}
    (hItem : ∀ state other start, related state other →
      Matched (item state) (itemOther other) related start)
    {close : Token} (hClose : close.startsQuoted = false) (context : String) {state : σ}
    {other : τ} (hState : related state other) :
    Matched (commaList close context item state) (commaList close context itemOther other)
      related cursor :=
  (hItem state other cursor hState).bind fun _ _ _ _ hFirst =>
    .loop (fun _ => .commaHead hClose context)
      (fun state other _ _ start _ hRelated _ => hItem state other start hRelated) hFirst

/-! ## Levels -/

/-- The inside of a block is the same with its literals closed. -/
theorem inside {body : Parser α} {other : Parser β} {related : α → β → Prop}
    {context : String}
    (hBody : ∀ entered : Cursor, entered.left < cursor.left →
      Matched body other related entered) :
    Matched (inside context body) (inside context other) related cursor := by
  have hRest : cursor.closed.rest = cursor.rest.map Token.closed := rfl
  unfold Matched
  rw [run_inside_eq, run_inside_eq, hRest, Cursor.splitBlock?_closed]
  cases hSplit : Cursor.splitBlock? 0 cursor.rest with
  | none => exact .error (by simp [Cursor.unterminated, ParseError.closed])
  | some parts =>
      simp only [Option.map_some, blockCursor_closed, blockEnd_closed]
      by_cases hOpen : cursor.depth < cursor.limit
      · have hOpenClosed : cursor.closed.depth < cursor.closed.limit := hOpen
        rw [if_pos hOpen, if_pos hOpenClosed]
        exact Reply.Matches.finish (hBody _ (left_blockCursor_lt hSplit)) fun _ => rfl
      · have hOpenClosed : ¬cursor.closed.depth < cursor.closed.limit := hOpen
        rw [if_neg hOpen, if_neg hOpenClosed]
        exact .error rfl

/-- What is read between entering a level and leaving it is read in both runs or in none. -/
theorem level {body : Parser α} {other : Parser β} {related : α → β → Prop}
    (hBody : ∀ entered, cursor.Onward entered → Matched body other related entered) :
    Matched (enter >>= fun _ => body >>= fun value => leave >>= fun _ => Pure.pure value)
      (enter >>= fun _ => other >>= fun value => leave >>= fun _ => Pure.pure value) related
      cursor := by
  unfold Matched
  rw [run_level_eq, run_level_eq]
  by_cases hOpen : cursor.depth < cursor.limit
  · have hOpenClosed : cursor.closed.depth < cursor.closed.limit := hOpen
    rw [if_pos hOpen, if_pos hOpenClosed]
    exact Reply.Matches.finish (hBody (entered cursor) (.of_depth cursor _)) fun _ => rfl
  · have hOpenClosed : ¬cursor.closed.depth < cursor.closed.limit := hOpen
    rw [if_neg hOpen, if_neg hOpenClosed]
    exact .error rfl

end Matched
end Parser
end ProtoIdl
