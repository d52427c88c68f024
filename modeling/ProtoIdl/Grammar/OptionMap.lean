import ProtoIdl.Parser.Primitive
import ProtoIdl.Schema.Option

/-!
# Option maps

An option map is a braced list of entries, with or without commas and semicolons
between them.  Option maps nest without being isolated first, so their parser calls
itself on what is ahead.  `entriesFrom` does so by recursion on the number of tokens
ahead; `entries_eq` states it as an equation between parsers.
-/

namespace ProtoIdl
namespace Grammar

open ProtoIdl.Parser

/-! ## Entries -/

/-- How a nested map is written after its key: as a value after a colon, or as one
of the blocks of the key. -/
inductive NestedForm where
  | value
  | block
  deriving DecidableEq, Repr

/-- Add a nested map to the map around it. -/
def NestedForm.store (form : NestedForm) (options : OptionMap) (key : String)
    (inner : OptionMap) : Except ParseError OptionMap :=
  match form with
  | .value => options.bind key (.map inner)
  | .block => options.pushBlock key inner

/-- What comes next in an option map. -/
inductive MapEntry where
  /-- The closing brace. -/
  | close
  /-- A comma or a semicolon. -/
  | separator
  /-- A key with a literal. -/
  | literal (key : String) (value : OptionValue)
  /-- A key and the opening brace of a nested map. -/
  | nested (form : NestedForm) (key : String)

/-- Read the key of an entry, of which the first token has been taken. -/
def entryKey (first : Token) : Parser String :=
  if first = "(" then do
    let key ← word "option map key" "option map"
    expect ")" "option map"
    return key
  else if first.isPunctuation then rejectLast "option map"
  else pure first

/-- Read what follows the key of an entry: a block, or a colon and a value.  A key
with a colon must be new. -/
def entryValue (options : OptionMap) (key : String) : Parser MapEntry := do
  let _ ← takeComments
  let sign ← next "option map value" "option map"
  if sign = ":" then
    if options.contains key then fail (.duplicate .optionMapKey key)
    else
      let _ ← takeComments
      let value ← next "option map value" "option map"
      if value = Token.openBrace then return .nested .value key
      else if value.isPunctuation then rejectLast "option map"
      else return .literal key (.ofLiteral value)
  else if sign = Token.openBrace then return .nested .block key
  else rejectLast "option map"

/-- Read one entry, up to the opening brace if it is a nested map. -/
def mapEntry (options : OptionMap) : Parser MapEntry := do
  let _ ← takeComments
  let first ← next Token.closeBrace "option map"
  if first = Token.closeBrace then return .close
  else if first = "," ∨ first = ";" then return .separator
  else
    let key ← entryKey first
    entryValue options key

/-- Every entry takes a token. -/
theorem mapEntry_consumes (options : OptionMap) : (mapEntry options).Consumes fun _ => True :=
  .bind_right fun _ => .bind_left (next_consumes _ _)

/-! ## Maps -/

/-- Read the entries that are left of an option map, with its closing brace.  The
answer comes with the proof that the cursor has moved on, which the entries after a
nested map need. -/
def entriesFrom (cursor : Cursor) (options : OptionMap) :
    { reply : Reply OptionMap // cursor.Onward reply.cursor } :=
  match hEntry : (mapEntry options).run cursor with
  | .error fault after =>
      ⟨.error fault after, by
        have hOnward := (mapEntry options).onward cursor
        rwa [hEntry] at hOnward⟩
  | .ok .close after => ⟨.ok options after, onward_of_ok hEntry⟩
  | .ok .separator after =>
      let later := entriesFrom after options
      ⟨later.val, (onward_of_ok hEntry).trans later.property⟩
  | .ok (.literal key value) after =>
      match options.bind key value with
      | .error fault => ⟨.error fault after, onward_of_ok hEntry⟩
      | .ok grown =>
          let later := entriesFrom after grown
          ⟨later.val, (onward_of_ok hEntry).trans later.property⟩
  | .ok (.nested form key) between =>
      match hEnter : between.enter with
      | .error fault => ⟨.error fault between, onward_of_ok hEntry⟩
      | .ok inside =>
          have hInside := Cursor.onward_of_enter hEnter
          match entriesFrom inside ∅ with
          | ⟨.error fault after, hAfter⟩ =>
              ⟨.error fault after, ((onward_of_ok hEntry).trans hInside).trans hAfter⟩
          | ⟨.ok inner after, hAfter⟩ =>
              have hLeave := (hInside.trans hAfter).trans (Cursor.onward_leave after)
              match form.store options key inner with
              | .error fault => ⟨.error fault after.leave, (onward_of_ok hEntry).trans hLeave⟩
              | .ok grown =>
                  let later := entriesFrom after.leave grown
                  ⟨later.val, ((onward_of_ok hEntry).trans hLeave).trans later.property⟩
termination_by cursor.left
decreasing_by
  all_goals have hTaken := mapEntry_consumes options cursor _ _ hEntry trivial
  · exact hTaken
  · exact hTaken
  · exact Nat.lt_of_le_of_lt hInside.left_le hTaken
  · exact Nat.lt_of_le_of_lt hLeave.left_le hTaken

/-- The parser of the entries that are left of an option map. -/
def entries (options : OptionMap) : Parser OptionMap where
  run cursor := (entriesFrom cursor options).val
  onward cursor := (entriesFrom cursor options).property

/-- Read an option map after its opening brace, with its closing brace. -/
def optionMap : Parser OptionMap := do
  enter
  let options ← entries ∅
  leave
  return options

/-- One round of reading entries: one entry, and then the others. -/
theorem entries_eq (options : OptionMap) :
    entries options =
      (mapEntry options >>= fun entry =>
        match entry with
        | .close => pure options
        | .separator => entries options
        | .literal key value => ofExcept (options.bind key value) >>= entries
        | .nested form key =>
            optionMap >>= fun inner => ofExcept (form.store options key inner) >>= entries) := by
  ext cursor
  rw [run_bind]
  simp only [entries]
  rw [entriesFrom]
  split
  · next hEntry => simp [hEntry]
  · next hEntry => simp [hEntry]
  · next hEntry => simp [hEntry]
  · next key value after hEntry =>
      simp only [hEntry]
      cases options.bind key value <;> rfl
  · next form key between hEntry =>
      simp only [hEntry, optionMap, run_bind, enter]
      split
      · next fault hEnter => simp [hEnter]
      · next inside hEnter =>
          simp only [hEnter, entries]
          split
          · next fault after _ hInner => simp [hInner]
          · next inner after _ hInner =>
              simp only [hInner, leave, run_pure]
              cases form.store options key inner <;> rfl

end Grammar
end ProtoIdl
