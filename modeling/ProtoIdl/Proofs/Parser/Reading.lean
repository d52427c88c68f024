import ProtoIdl.Proofs.Parser.Running

/-!
# Successful readings

`parser.Reads levels ahead value later` describes a successful run by its tokens alone:
with `ahead` in front of the cursor the parser answers `value` and leaves `later`.  The
place of the cursor in the stream does not matter, and its level matters only as far as
`levels` more of them must be open.

Readings compose as parsers do (`Reads.bind`).  A list of items is read one by one, and
`reads_flatMap` carries the state through a whole run of items of one kind.  Two more judgements
of the same kind tell a fault (`FailsOn`) and a run that is known up to some point (`GoesOn`).
-/

namespace ProtoIdl
namespace Parser

/-- With `ahead` in front of it the parser answers `value`, leaves `later`, and is back at
its level, wherever `levels` more levels may be entered. -/
def Reads (parser : Parser α) (levels : Nat) (ahead : List Token) (value : α)
    (later : List Token) : Prop :=
  ∀ cursor : Cursor, cursor.rest = ahead → cursor.depth + levels ≤ cursor.limit →
    ∃ after, parser.run cursor = .ok value after ∧ after.rest = later ∧
      after.depth = cursor.depth

variable {levels : Nat} {ahead later : List Token}

namespace Reads

theorem pure (value : α) : (pure value : Parser α).Reads levels ahead value ahead :=
  fun cursor hRest _ => ⟨cursor, rfl, hRest, rfl⟩

/-- The second parser reads what the first one leaves. -/
theorem bind {first : Parser α} {second : α → Parser β} {inner : α} {value : β}
    {middle : List Token} (hFirst : first.Reads levels ahead inner middle)
    (hSecond : (second inner).Reads levels middle value later) :
    (first >>= second).Reads levels ahead value later := by
  intro cursor hRest hLevels
  obtain ⟨between, hRun, hMiddle, hDepth⟩ := hFirst cursor hRest hLevels
  have hLimit := (onward_of_ok hRun).limit_eq
  obtain ⟨after, hRun', hLater, hDepth'⟩ := hSecond between hMiddle (by omega)
  exact ⟨after, run_bind_eq_ok_iff.mpr ⟨inner, between, hRun, hRun'⟩, hLater, by omega⟩

theorem map {parser : Parser α} {value : α} (change : α → β)
    (hReads : parser.Reads levels ahead value later) :
    (change <$> parser).Reads levels ahead (change value) later := by
  rw [map_eq_pure_bind]
  exact hReads.bind (.pure _)

/-- A computation without tokens reads nothing. -/
theorem ofExcept {result : Except ParseError α} {value : α} (hResult : result = .ok value) :
    (Parser.ofExcept result).Reads levels ahead value ahead := by
  rw [hResult]
  exact .pure value

end Reads

/-! ## Going on

Where a parser is known up to some point, what it does from there on decides, be it a reading
or a fault. -/

/-- With `ahead` in front of it the parser fails, wherever `levels` more levels may be entered. -/
def FailsOn (parser : Parser α) (levels : Nat) (ahead : List Token) (fault : ParseError) : Prop :=
  ∀ cursor : Cursor, cursor.rest = ahead → cursor.depth + levels ≤ cursor.limit →
    (parser.run cursor).Fails fault

/-- With `ahead` in front of it the first parser does what the second does with `later` in
front of it. -/
def GoesOn (first : Parser α) (levels : Nat) (ahead : List Token) (second : Parser α)
    (later : List Token) : Prop :=
  ∀ cursor : Cursor, cursor.rest = ahead → cursor.depth + levels ≤ cursor.limit →
    ∃ between : Cursor, between.rest = later ∧ between.depth = cursor.depth ∧
      between.limit = cursor.limit ∧ first.run cursor = second.run between

variable {middle : List Token} {fault : ParseError}

/-- What fails before anything else does makes the whole fail. -/
theorem FailsOn.bind {first : Parser α} (hFirst : first.FailsOn levels ahead fault)
    (second : α → Parser β) : (first >>= second).FailsOn levels ahead fault :=
  fun cursor hRest hLevels => fails_bind (hFirst cursor hRest hLevels) second

theorem failsOn_fail (fault : ParseError) :
    (fail fault : Parser α).FailsOn levels ahead fault :=
  fun cursor _ _ => ⟨cursor, rfl⟩

namespace GoesOn

theorem refl (parser : Parser α) : parser.GoesOn levels ahead parser ahead :=
  fun cursor hRest _ => ⟨cursor, hRest, rfl, rfl, rfl⟩

theorem trans {first second third : Parser α} (hFirst : first.GoesOn levels ahead second middle)
    (hSecond : second.GoesOn levels middle third later) :
    first.GoesOn levels ahead third later := by
  intro cursor hRest hLevels
  obtain ⟨between, hMiddle, hDepth, hLimit, hRun⟩ := hFirst cursor hRest hLevels
  obtain ⟨after, hLater, hDepth', hLimit', hRun'⟩ :=
    hSecond between hMiddle (by rw [hDepth, hLimit]; exact hLevels)
  exact ⟨after, hLater, hDepth'.trans hDepth, hLimit'.trans hLimit, hRun.trans hRun'⟩

/-- What has been read is behind, and the second parser goes on. -/
theorem bind {first : Parser α} {second : α → Parser β} {value : α}
    (hFirst : first.Reads levels ahead value later) :
    (first >>= second).GoesOn levels ahead (second value) later := by
  intro cursor hRest hLevels
  obtain ⟨between, hRun, hLater, hDepth⟩ := hFirst cursor hRest hLevels
  exact ⟨between, hLater, hDepth, (onward_of_ok hRun).limit_eq, by rw [run_bind, hRun]⟩

theorem reads {first second : Parser α} {value : α}
    (hFirst : first.GoesOn levels ahead second middle)
    (hSecond : second.Reads levels middle value later) :
    first.Reads levels ahead value later := by
  intro cursor hRest hLevels
  obtain ⟨between, hMiddle, hDepth, hLimit, hRun⟩ := hFirst cursor hRest hLevels
  obtain ⟨after, hRun', hLater, hDepth'⟩ :=
    hSecond between hMiddle (by rw [hDepth, hLimit]; exact hLevels)
  exact ⟨after, hRun.trans hRun', hLater, hDepth'.trans hDepth⟩

theorem failsOn {first second : Parser α} (hFirst : first.GoesOn levels ahead second middle)
    (hSecond : second.FailsOn levels middle fault) : first.FailsOn levels ahead fault := by
  intro cursor hRest hLevels
  obtain ⟨between, hMiddle, hDepth, hLimit, hRun⟩ := hFirst cursor hRest hLevels
  rw [hRun]
  exact hSecond between hMiddle (by rw [hDepth, hLimit]; exact hLevels)

end GoesOn

/-! ## Single tokens -/

theorem reads_peekNth (n : Nat) : (peekNth n).Reads levels ahead ahead[n]? ahead := by
  intro cursor hRest _
  refine ⟨cursor, ?_, hRest, rfl⟩
  simp [peekNth, Cursor.peekNth?, hRest]

theorem reads_peek : peek.Reads levels ahead ahead.head? ahead := by
  rw [List.head?_eq_getElem?]
  exact reads_peekNth 0

theorem reads_advance (token : Token) :
    advance.Reads levels (token :: later) (some token) later := by
  intro cursor hRest _
  refine ⟨{ cursor with seen := token :: cursor.seen, rest := later }, ?_, rfl, rfl⟩
  simp [advance, hRest]

theorem reads_advance_nil : advance.Reads levels [] none [] := by
  intro cursor hRest _
  refine ⟨cursor, ?_, hRest, rfl⟩
  simp [advance, hRest]

/-- A token of the class is taken. -/
theorem reads_takeIf {accepts : Token → Bool} {token : Token} (hAccepts : accepts token = true) :
    (takeIf accepts).Reads levels (token :: later) (some token) later := by
  intro cursor hRest _
  refine ⟨{ cursor with seen := token :: cursor.seen, rest := later }, ?_, rfl, rfl⟩
  simp [takeIf, hRest, hAccepts]

/-- A token outside the class stays, and so does the end of the tokens. -/
theorem reads_takeIf_none {accepts : Token → Bool}
    (hAhead : ∀ token, ahead.head? = some token → accepts token = false) :
    (takeIf accepts).Reads levels ahead none ahead := by
  intro cursor hRest _
  refine ⟨cursor, ?_, hRest, rfl⟩
  cases ahead with
  | nil => simp [takeIf, hRest]
  | cons token rest => simp [takeIf, hRest, hAhead token rfl]

theorem reads_eat (token : Token) : (eat token).Reads levels (token :: later) true later :=
  (reads_takeIf (by simp)).bind (.pure _)

theorem reads_eat_other {token : Token} (hAhead : ahead.head? ≠ some token) :
    (eat token).Reads levels ahead false ahead := by
  refine .bind (reads_takeIf_none ?_) (.pure _)
  intro other hHead
  have hOther : other ≠ token := by
    rintro rfl
    exact hAhead hHead
  simpa using hOther

theorem reads_next (token : Token) (expected context : String) :
    (next expected context).Reads levels (token :: later) token later :=
  (reads_advance token).bind (.pure token)

theorem reads_expect (token : Token) (context : String) :
    (expect token context).Reads levels (token :: later) () later := by
  refine .bind (reads_next token _ _) ?_
  rw [if_pos rfl]
  exact .pure ()

theorem reads_checkWord {token : Token} (hWord : token.isWordLike = true) (context : String) :
    (checkWord token context).Reads levels ahead token ahead := by
  rw [checkWord, if_pos hWord]
  exact .pure token

theorem reads_word {token : Token} (hWord : token.isWordLike = true) (expected context : String) :
    (word expected context).Reads levels (token :: later) token later :=
  (reads_next token _ _).bind (reads_checkWord hWord _)

theorem reads_numeral {interval : Numeral.Interval} {literal : Token} {value : Int}
    (hValue : Numeral.within? interval literal = some value) (context : String) :
    (numeral interval literal context).Reads levels ahead value ahead := by
  rw [numeral, hValue]
  exact .pure value

/-- A run of comments is taken up to the first other token. -/
theorem run_takeComments {cursor : Cursor} {comments : List Token}
    (hComments : ∀ token ∈ comments, token.isComment = true)
    (hLater : ∀ token, later.head? = some token → token.isComment = false)
    (hRest : cursor.rest = comments ++ later) :
    takeComments.run cursor =
      .ok (comments.map Token.commentBody)
        { cursor with seen := comments.reverse ++ cursor.seen, rest := later } := by
  have hStop : later.takeWhile Token.isComment = [] ∧ later.dropWhile Token.isComment = later := by
    cases later with
    | nil => exact ⟨rfl, rfl⟩
    | cons token rest =>
        have hToken := hLater token rfl
        simp [hToken]
  simp only [takeComments, hRest]
  rw [List.takeWhile_append_of_pos hComments, List.dropWhile_append_of_pos hComments, hStop.1,
    hStop.2, List.append_nil]

theorem reads_takeComments (comments : List Token)
    (hComments : ∀ token ∈ comments, token.isComment = true)
    (hLater : ∀ token, later.head? = some token → token.isComment = false) :
    takeComments.Reads levels (comments ++ later) (comments.map Token.commentBody) later :=
  fun _ hRest _ => ⟨_, run_takeComments hComments hLater hRest, rfl, rfl⟩

theorem reads_commentsBefore {token : Token} {comments : List Token}
    (hComments : ∀ other ∈ comments, other.isComment = true) (hToken : token.isComment = false) :
    takeComments.Reads levels (comments ++ token :: later) (comments.map Token.commentBody)
      (token :: later) := by
  refine reads_takeComments comments hComments ?_
  rintro other ⟨⟩
  exact hToken

/-! ## Lists of items -/

/-- The head of a member is a run of comments and its first token. -/
theorem reads_memberHead_some {comments : List Token} {token : Token} {context : String}
    (hComments : ∀ other ∈ comments, other.isComment = true) (hToken : token.isComment = false)
    (hClose : token ≠ Token.closeBrace) :
    (memberHead context).Reads levels (comments ++ token :: later)
      (some (comments.map Token.commentBody, token)) later := by
  refine .bind (reads_commentsBefore hComments hToken) (.bind (reads_next _ _ _) ?_)
  rw [if_neg hClose]
  exact .pure _

/-- A closing brace, after a run of comments, ends a braced list. -/
theorem reads_memberHead_none {comments : List Token} {context : String}
    (hComments : ∀ other ∈ comments, other.isComment = true) :
    (memberHead context).Reads levels (comments ++ Token.closeBrace :: later) none later := by
  refine .bind (reads_commentsBefore hComments (by decide)) (.bind (reads_next _ _ _) ?_)
  rw [if_pos rfl]
  exact .pure _

section Loops

variable {head : Head η} {item : σ → η → Parser σ} {state final : σ}

/-- A head that finds no more items ends the loop. -/
theorem reads_loop_done (hHead : head.Reads levels ahead none later) :
    (loop head item state).Reads levels ahead state later := by
  rw [loop_eq]
  exact .bind hHead (.pure state)

/-- A head that finds an item is followed by the item and the rest of the loop. -/
theorem reads_loop_item {found : η} {grown : σ} {middle rest : List Token}
    (hHead : head.Reads levels ahead (some found) middle)
    (hItem : (item state found).Reads levels middle grown rest)
    (hLoop : (loop head item grown).Reads levels rest final later) :
    (loop head item state).Reads levels ahead final later := by
  rw [loop_eq]
  exact .bind hHead (.bind hItem hLoop)

end Loops

/-- The tokens do not start with a semicolon, which a construct before them could take
for its own. -/
def NoSemicolonFirst (tokens : List Token) : Prop :=
  tokens.head? ≠ some ";"

theorem noSemicolonFirst_nil : NoSemicolonFirst [] := by
  simp [NoSemicolonFirst]

theorem noSemicolonFirst_cons {token : Token} (hToken : token ≠ ";") :
    NoSemicolonFirst (token :: later) := by
  simpa [NoSemicolonFirst] using hToken

theorem NoSemicolonFirst.append {tokens : List Token} (hTokens : NoSemicolonFirst tokens)
    (hLater : NoSemicolonFirst later) : NoSemicolonFirst (tokens ++ later) := by
  cases tokens with
  | nil => exact hLater
  | cons token rest => exact hTokens

theorem noSemicolonFirst_flatMap {tokens : ξ → List Token} {items : List ξ}
    (hTokens : ∀ x ∈ items, NoSemicolonFirst (tokens x)) :
    NoSemicolonFirst (items.flatMap tokens) := by
  induction items with
  | nil => exact noSemicolonFirst_nil
  | cons x rest ih =>
      rw [List.flatMap_cons]
      exact (hTokens x (by simp)).append (ih fun y hy => hTokens y (by simp [hy]))

/-- A run of items of one kind, read one by one.  `stateAt done` is the state when the
items `done` have been read, and `Holds` is the judgement about what is still to come. -/
theorem reads_flatMap (Holds : σ → List Token → Prop) {tokens : ξ → List Token}
    {items : List ξ} (stateAt : List ξ → σ)
    (hItem : ∀ done x todo, items = done ++ x :: todo → ∀ rest, NoSemicolonFirst rest →
      Holds (stateAt (done ++ [x])) rest → Holds (stateAt done) (tokens x ++ rest))
    (hTokens : ∀ x ∈ items, NoSemicolonFirst (tokens x)) (hLater : NoSemicolonFirst later)
    (hEnd : Holds (stateAt items) later) :
    Holds (stateAt []) (items.flatMap tokens ++ later) := by
  suffices hSuffix : ∀ todo done, items = done ++ todo →
      Holds (stateAt done) (todo.flatMap tokens ++ later) from hSuffix items [] rfl
  intro todo
  induction todo with
  | nil =>
      intro done hItems
      rw [List.append_nil] at hItems
      rw [← hItems]
      exact hEnd
  | cons x todo ih =>
      intro done hItems
      have hTodo : NoSemicolonFirst (todo.flatMap tokens ++ later) :=
        (noSemicolonFirst_flatMap fun y hy => hTokens y (by simp [hItems, hy])).append hLater
      rw [List.flatMap_cons, List.append_assoc]
      exact hItem done x todo hItems _ hTodo (ih (done ++ [x]) (by simp [hItems]))

end Parser
end ProtoIdl
