import ProtoIdl.Cursor

/-!
# Parsers

A parser runs on a cursor and answers with a value or an error, and with a cursor
that lies further on; the type holds the proof of that.  Parsers are composed as a
monad, and `run_bind_eq_ok_iff` takes a successful run of a composition apart.

`Parser.Consumes` says that a parser takes a token, and composition keeps it.
-/

namespace ProtoIdl

/-- The answer of a parser, and the cursor where it stopped. -/
inductive Reply (α : Type) where
  | ok (value : α) (cursor : Cursor)
  | error (fault : ParseError) (cursor : Cursor)

/-- The cursor where a parser stopped. -/
def Reply.cursor : Reply α → Cursor
  | ok _ cursor => cursor
  | error _ cursor => cursor

@[simp] theorem Reply.cursor_ok (value : α) (cursor : Cursor) :
    (Reply.ok value cursor).cursor = cursor := rfl

@[simp] theorem Reply.cursor_error (fault : ParseError) (cursor : Cursor) :
    (Reply.error fault cursor : Reply α).cursor = cursor := rfl

/-- A step over the tokens of a cursor that only moves on. -/
structure Parser (α : Type) where
  run : Cursor → Reply α
  onward : ∀ cursor : Cursor, cursor.Onward (run cursor).cursor

namespace Parser

/-- Parsers that answer alike are equal. -/
@[ext] theorem ext {first second : Parser α}
    (hRun : ∀ cursor, first.run cursor = second.run cursor) : first = second := by
  cases first
  cases second
  congr
  exact funext hRun

/-! ## Composition -/

/-- Answer a value and stay. -/
def succeed (value : α) : Parser α where
  run cursor := .ok value cursor
  onward cursor := .refl cursor

/-- Answer an error and stay. -/
def fail (fault : ParseError) : Parser α where
  run cursor := .error fault cursor
  onward cursor := .refl cursor

/-- Run one parser, and then another that may depend on its answer. -/
def andThen (first : Parser α) (second : α → Parser β) : Parser β where
  run cursor :=
    match first.run cursor with
    | .ok value after => (second value).run after
    | .error fault after => .error fault after
  onward cursor := by
    have hFirst := first.onward cursor
    split
    · next value after hRun =>
        rw [hRun] at hFirst
        exact hFirst.trans ((second value).onward after)
    · next fault after hRun =>
        rw [hRun] at hFirst
        exact hFirst

instance : Monad Parser where
  pure := succeed
  bind := andThen

@[simp] theorem run_pure (value : α) (cursor : Cursor) :
    (pure value : Parser α).run cursor = .ok value cursor := rfl

@[simp] theorem run_fail (fault : ParseError) (cursor : Cursor) :
    (fail fault : Parser α).run cursor = .error fault cursor := rfl

theorem run_bind (first : Parser α) (second : α → Parser β) (cursor : Cursor) :
    (first >>= second).run cursor =
      match first.run cursor with
      | .ok value after => (second value).run after
      | .error fault after => .error fault after := rfl

/-- A composed parser succeeds exactly when its two parts do, one after the other. -/
theorem run_bind_eq_ok_iff {first : Parser α} {second : α → Parser β} {cursor after : Cursor}
    {value : β} :
    (first >>= second).run cursor = .ok value after ↔
      ∃ inner between, first.run cursor = .ok inner between ∧
        (second inner).run between = .ok value after := by
  rw [run_bind]
  constructor
  · intro hRun
    split at hRun
    · next inner between hFirst => exact ⟨inner, between, hFirst, hRun⟩
    · cases hRun
  · rintro ⟨inner, between, hFirst, hSecond⟩
    rw [hFirst]
    exact hSecond

instance : LawfulMonad Parser :=
  LawfulMonad.mk' Parser
    (by
      intro α parser
      ext cursor
      change (parser >>= fun value => pure (id value)).run cursor = _
      rw [run_bind]
      cases parser.run cursor <;> rfl)
    (fun _ _ => rfl)
    (by
      intro α β γ first second third
      ext cursor
      simp only [run_bind]
      cases first.run cursor <;> rfl)

/-- Answer what a computation without tokens has come to. -/
def ofExcept : Except ParseError α → Parser α
  | .ok value => pure value
  | .error fault => fail fault

/-- Where a parser succeeds, it has moved on. -/
theorem onward_of_ok {parser : Parser α} {cursor after : Cursor} {value : α}
    (hRun : parser.run cursor = .ok value after) : cursor.Onward after := by
  have hOnward := parser.onward cursor
  rwa [hRun] at hOnward

/-! ## Progress -/

/-- Wherever the parser answers a value of the class, it has taken a token. -/
def Consumes (parser : Parser α) (accepts : α → Prop) : Prop :=
  ∀ cursor value after, parser.run cursor = .ok value after → accepts value →
    after.left < cursor.left

/-- What starts by taking a token takes a token. -/
theorem Consumes.bind_left {first : Parser α} {second : α → Parser β} {accepts : β → Prop}
    (hFirst : first.Consumes fun _ => True) : (first >>= second).Consumes accepts := by
  intro cursor value after hRun _
  obtain ⟨inner, between, hInner, hOuter⟩ := run_bind_eq_ok_iff.mp hRun
  exact Nat.lt_of_le_of_lt (onward_of_ok hOuter).left_le
    (hFirst cursor inner between hInner trivial)

/-- What goes on to take a token takes a token. -/
theorem Consumes.bind_right {first : Parser α} {second : α → Parser β} {accepts : β → Prop}
    (hSecond : ∀ value, (second value).Consumes accepts) :
    (first >>= second).Consumes accepts := by
  intro cursor value after hRun hAccepts
  obtain ⟨inner, between, hInner, hOuter⟩ := run_bind_eq_ok_iff.mp hRun
  exact Nat.lt_of_lt_of_le (hSecond inner between value after hOuter hAccepts)
    (onward_of_ok hInner).left_le

end Parser
end ProtoIdl
