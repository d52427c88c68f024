import ProtoIdl.Parser.Loop

/-!
# Runs made of primitive steps

`parser.Traced cursor` says that the run of `parser` from `cursor` goes by the primitive
steps alone, and that wherever it rejects a token there is one to reject.  What holds of
every primitive step, and survives doing one step after another, then holds of every run
by induction on the trace.

A trace is about one run: what follows a step is only asked about at the cursor where
that step has stopped.  This is why a parser that rejects the token passed last has a
trace only from cursors that have passed one.
-/

namespace ProtoIdl

/-- An error about what was read: it names neither a position nor a level. -/
def ParseError.OfContent : ParseError → Prop
  | .lexical _ _ | .unexpectedToken _ _ _ | .unterminated _ _ _ | .tooDeep _ => False
  | _ => True

namespace Cursor

/-- Moving on forgets no token. -/
theorem Onward.seen_ne_nil {earlier later : Cursor} (hOnward : earlier.Onward later)
    (hSeen : earlier.seen ≠ []) : later.seen ≠ [] := by
  obtain ⟨_, _, used, _, hPassed⟩ := hOnward
  rw [hPassed]
  simp [hSeen]

/-- A move that takes a token leaves a token behind. -/
theorem Onward.seen_ne_nil_of_lt {earlier later : Cursor} (hOnward : earlier.Onward later)
    (hLess : later.left < earlier.left) : later.seen ≠ [] := by
  obtain ⟨_, _, used, hRest, hPassed⟩ := hOnward
  have hUsed : used ≠ [] := by
    rintro rfl
    simp [left, hRest] at hLess
  rw [hPassed]
  simp [hUsed]

end Cursor

namespace Parser

/-- The run from the cursor is made of primitive steps, and each token it rejects is
there. -/
inductive Traced : {α : Type} → Parser α → Cursor → Prop
  | pure {α : Type} {cursor : Cursor} (value : α) : Traced (pure value) cursor
  | fail {α : Type} {cursor : Cursor} {fault : ParseError} (hContent : fault.OfContent) :
      Traced (fail fault : Parser α) cursor
  | bind {α β : Type} {first : Parser α} {second : α → Parser β} {cursor : Cursor}
      (hFirst : Traced first cursor)
      (hSecond : ∀ value after, first.run cursor = .ok value after →
        Traced (second value) after) :
      Traced (first >>= second) cursor
  | peekNth {cursor : Cursor} (n : Nat) : Traced (peekNth n) cursor
  | rejectNth {α : Type} {cursor : Cursor} {n : Nat} {context : String}
      (hAhead : n < cursor.left) : Traced (rejectNth n context : Parser α) cursor
  | rejectLast {α : Type} {cursor : Cursor} {context : String} (hSeen : cursor.seen ≠ []) :
      Traced (rejectLast context : Parser α) cursor
  | rejectEnd {α : Type} {cursor : Cursor} (expected context : String) :
      Traced (rejectEnd expected context : Parser α) cursor
  | advance {cursor : Cursor} : Traced advance cursor
  | takeIf {cursor : Cursor} (accepts : Token → Bool) : Traced (takeIf accepts) cursor
  | takeComments {cursor : Cursor} : Traced takeComments cursor
  | enter {cursor : Cursor} : Traced enter cursor
  | leave {cursor : Cursor} : Traced leave cursor
  | inside {α : Type} {body : Parser α} {cursor : Cursor} {context : String}
      (hBody : ∀ block after entered, (takeBlock context).run cursor = .ok block after →
        block.enter = .ok entered → Traced body entered) :
      Traced (inside context body) cursor

namespace Traced

/-- A change of the answer is no step. -/
theorem map {parser : Parser α} {cursor : Cursor} (change : α → β)
    (hParser : Traced parser cursor) : Traced (change <$> parser) cursor := by
  rw [map_eq_pure_bind]
  exact .bind hParser fun value _ _ => .pure (change value)

/-- A computation without tokens is a step if its errors are about what was read. -/
theorem ofExcept {result : Except ParseError α} {cursor : Cursor}
    (hFaults : ∀ fault, result = .error fault → fault.OfContent) :
    Traced (Parser.ofExcept result) cursor := by
  cases result with
  | ok value => exact .pure value
  | error fault => exact .fail (hFaults fault rfl)

/-! ## Single tokens -/

theorem peek {cursor : Cursor} : Traced peek cursor :=
  .peekNth 0

theorem eat {cursor : Cursor} (token : Token) : Traced (eat token) cursor :=
  .bind (.takeIf _) fun found _ _ => .pure found.isSome

theorem next {cursor : Cursor} (expected context : String) :
    Traced (next expected context) cursor := by
  refine .bind .advance fun found after hRun => ?_
  cases found with
  | some token => exact .pure token
  | none => exact .rejectEnd expected context

/-- After a step that takes a token, there is a token to reject. -/
theorem bind_of_consumes {first : Parser α} {second : α → Parser β} {cursor : Cursor}
    (hConsumes : first.Consumes fun _ => True) (hFirst : Traced first cursor)
    (hSecond : ∀ value after, after.seen ≠ [] → Traced (second value) after) :
    Traced (first >>= second) cursor := by
  refine .bind hFirst fun value after hRun => hSecond value after ?_
  exact (onward_of_ok hRun).seen_ne_nil_of_lt (hConsumes cursor value after hRun trivial)

/-- What follows a step from a cursor that has passed a token starts at such a cursor
too. -/
theorem bind_of_seen {first : Parser α} {second : α → Parser β} {cursor : Cursor}
    (hSeen : cursor.seen ≠ []) (hFirst : Traced first cursor)
    (hSecond : ∀ value after, after.seen ≠ [] → Traced (second value) after) :
    Traced (first >>= second) cursor :=
  .bind hFirst fun value after hRun =>
    hSecond value after ((onward_of_ok hRun).seen_ne_nil hSeen)

/-- A token is taken and then looked at. -/
theorem next_bind {expected context : String} {second : Token → Parser β} {cursor : Cursor}
    (hSecond : ∀ token after, after.seen ≠ [] → Traced (second token) after) :
    Traced (Parser.next expected context >>= second) cursor :=
  bind_of_consumes (next_consumes expected context) (.next expected context) hSecond

theorem expect {cursor : Cursor} (token : Token) (context : String) :
    Traced (expect token context) cursor := by
  refine next_bind fun found after hSeen => ?_
  split
  · exact .pure ()
  · exact .rejectLast hSeen

theorem checkWord {cursor : Cursor} (hSeen : cursor.seen ≠ []) (token : Token)
    (context : String) : Traced (checkWord token context) cursor := by
  unfold Parser.checkWord
  split
  · exact .pure token
  · exact .rejectLast hSeen

theorem word {cursor : Cursor} (expected context : String) :
    Traced (word expected context) cursor :=
  next_bind fun token _ hSeen => checkWord hSeen token context

theorem numeral {cursor : Cursor} (interval : Numeral.Interval) (literal : Token)
    (context : String) : Traced (numeral interval literal context) cursor := by
  unfold Parser.numeral
  split
  · exact .pure _
  · exact .fail trivial

/-! ## Lists of items -/

/-- A loop is traced if its head and its items are.  Each round starts where the one
before has stopped, with fewer tokens ahead, and this carries the induction. -/
theorem loop {head : Head η} {item : σ → η → Parser σ}
    (hHead : ∀ cursor, Traced head.toParser cursor)
    (hItem : ∀ state found cursor, cursor.seen ≠ [] → Traced (item state found) cursor)
    (state : σ) (cursor : Cursor) : Traced (loop head item state) cursor := by
  induction hLeft : cursor.left using Nat.strongRecOn generalizing state cursor with
  | _ left ih =>
      rw [loop_eq]
      refine .bind (hHead cursor) fun found between hRun => ?_
      cases found with
      | none => exact .pure state
      | some found =>
          have hLess := head.progress cursor _ between hRun rfl
          have hSeen := (onward_of_ok hRun).seen_ne_nil_of_lt hLess
          refine .bind (hItem state found between hSeen) fun grown after hItemRun => ?_
          have hLe := (onward_of_ok hItemRun).left_le
          exact ih after.left (by omega) grown after rfl

theorem memberHead {cursor : Cursor} (context : String) :
    Traced (memberHead context).toParser cursor := by
  refine .bind .takeComments fun _ afterComments _ => ?_
  refine .bind (.next _ _) fun first afterFirst _ => ?_
  exact .pure _

theorem statementHead {cursor : Cursor} : Traced statementHead.toParser cursor := by
  refine .bind .takeComments fun _ afterComments _ => ?_
  refine .bind .advance fun found afterFound _ => ?_
  exact .pure _

theorem commaHead {cursor : Cursor} (close : Token) (context : String) :
    Traced (commaHead close context).toParser cursor := by
  refine next_bind fun token after hSeen => ?_
  split
  · exact .pure _
  · split
    · exact .pure _
    · exact .rejectLast hSeen

theorem commaList {cursor : Cursor} {item : σ → Parser σ}
    (hItem : ∀ state cursor, Traced (item state) cursor) (close : Token) (context : String)
    (state : σ) : Traced (commaList close context item state) cursor :=
  .bind (hItem state cursor) fun first after _ =>
    loop (fun _ => commaHead close context) (fun state _ cursor _ => hItem state cursor) first
      after

end Traced
end Parser
end ProtoIdl
