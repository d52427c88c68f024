import ProtoIdl.Grammar.OptionMap
import ProtoIdl.Parser.Loop
import ProtoIdl.Proofs.Parser.Running

/-!
# What parsers answer

`parser.Yields holds cursor` says that a value answered from the cursor is in the class
`holds`.  What follows a step is only asked about the values that the step can answer, and
a loop keeps what each of its items keeps.
-/

namespace ProtoIdl
namespace Parser

/-- Every value that the parser answers from the cursor is in the class. -/
def Yields (parser : Parser α) (holds : α → Prop) (cursor : Cursor) : Prop :=
  ∀ value after, parser.run cursor = .ok value after → holds value

/-- A computation without tokens answers what it has come to, and stays. -/
theorem eq_of_run_ofExcept {result : Except ParseError α} {value : α} {cursor after : Cursor}
    (hRun : (ofExcept result).run cursor = .ok value after) :
    result = .ok value ∧ after = cursor := by
  cases result with
  | error fault => cases hRun
  | ok answer =>
      cases hRun
      exact ⟨rfl, rfl⟩

namespace Yields

variable {cursor : Cursor} {holds : α → Prop}

theorem pure {value : α} (hValue : holds value) : Yields (pure value) holds cursor := by
  intro answer after hRun
  cases hRun
  exact hValue

theorem fail (fault : ParseError) : Yields (fail fault) holds cursor :=
  fun _ _ hRun => nomatch hRun

theorem rejectLast (context : String) : Yields (rejectLast context) holds cursor :=
  fun _ _ hRun => nomatch hRun

theorem ofExcept {result : Except ParseError α}
    (hResult : ∀ value, result = .ok value → holds value) :
    Yields (Parser.ofExcept result) holds cursor :=
  fun value _ hRun => hResult value (eq_of_run_ofExcept hRun).1

/-- What follows a step is asked about the values that the step answers. -/
theorem bind {first : Parser α} {second : α → Parser β} {holds : β → Prop}
    {between : α → Prop} (hFirst : Yields first between cursor)
    (hSecond : ∀ value after, first.run cursor = .ok value after → between value →
      Yields (second value) holds after) :
    Yields (first >>= second) holds cursor := by
  intro value last hRun
  obtain ⟨inner, after, hInner, hOuter⟩ := run_bind_eq_ok_iff.mp hRun
  exact hSecond inner after hInner (hFirst inner after hInner) value last hOuter

/-- A step whose answer is of no concern. -/
theorem after {first : Parser α} {second : α → Parser β} {holds : β → Prop}
    (hSecond : ∀ value after, first.run cursor = .ok value after →
      Yields (second value) holds after) :
    Yields (first >>= second) holds cursor := by
  have hFirst : Yields first (fun _ => True) cursor := fun _ _ _ => trivial
  exact hFirst.bind fun value after hRun _ => hSecond value after hRun

/-- A loop keeps what its items keep.  The items are asked about where fewer tokens are
ahead. -/
theorem loop {head : Head η} {item : σ → η → Parser σ} {holds : σ → Prop}
    (hItem : ∀ state found (start : Cursor), start.left < cursor.left → holds state →
      Yields (item state found) holds start)
    {state : σ} (hState : holds state) : Yields (loop head item state) holds cursor := by
  induction hLeft : cursor.left using Nat.strongRecOn generalizing state cursor with
  | ind left ih =>
      rw [loop_eq]
      refine .after fun found between hHead => ?_
      cases found with
      | none => exact .pure hState
      | some found =>
          have hLess := head.progress cursor _ between hHead rfl
          refine .bind (hItem state found between hLess hState) fun grown after hRun hGrown => ?_
          have hLe := (onward_of_ok hRun).left_le
          refine ih after.left (by omega) ?_ hGrown rfl
          exact fun state found start hStart => hItem state found start (by omega)

theorem commaList {item : σ → Parser σ} {holds : σ → Prop}
    (hItem : ∀ state start, holds state → Yields (item state) holds start) (close : Token)
    (context : String) {state : σ} (hState : holds state) :
    Yields (commaList close context item state) holds cursor := by
  refine .bind (hItem state cursor hState) fun first after _ hFirst => ?_
  exact .loop (fun state _ start _ => hItem state start) hFirst

/-- A list has an item, so it answers what every item does. -/
theorem commaList_of_item {item : σ → Parser σ} {holds : σ → Prop}
    (hItem : ∀ state start, Yields (item state) holds start) (close : Token)
    (context : String) (state : σ) :
    Yields (Parser.commaList close context item state) holds cursor := by
  refine .bind (hItem state cursor) fun first after _ hFirst => ?_
  exact .loop (fun state _ start _ _ => hItem state start) hFirst

/-- A block answers what its inside does. -/
theorem inside {body : Parser α} {context : String}
    (hBody : ∀ entered : Cursor, entered.left < cursor.left → Yields body holds entered) :
    Yields (inside context body) holds cursor := by
  intro value after hRun
  obtain ⟨block, later, last, hSplit, _, hInner, _⟩ := exists_of_run_inside hRun
  exact hBody _ (left_blockCursor_lt hSplit) value last hInner

end Yields
end Parser

namespace Grammar

open ProtoIdl.Parser

variable {cursor : Cursor}

/-- What is read of an entry with a literal is the value of that literal. -/
def MapEntry.LiteralValued : MapEntry → Prop
  | .literal _ value => ∃ literal, value = .ofLiteral literal
  | _ => True

theorem yields_entryValue (options : OptionMap) (key : String) :
    Yields (entryValue options key) MapEntry.LiteralValued cursor := by
  refine .after fun _ afterComments _ => ?_
  refine .after fun sign afterSign _ => ?_
  split
  · split
    · exact .fail _
    · refine .after fun _ afterColonComments _ => ?_
      refine .after fun value afterValue _ => ?_
      split
      · exact .pure trivial
      · split
        · exact .rejectLast _
        · exact .pure ⟨value, rfl⟩
  · split
    · exact .pure trivial
    · exact .rejectLast _

theorem yields_mapEntry (options : OptionMap) :
    Yields (mapEntry options) MapEntry.LiteralValued cursor := by
  refine .after fun _ afterComments _ => ?_
  refine .after fun first afterFirst _ => ?_
  split
  · exact .pure trivial
  · split
    · exact .pure trivial
    · exact .after fun key _ _ => yields_entryValue options key

/-- Induction on the entries ahead.  The property holds of the map that is read so far if it
holds of every map wherever the next entry, and what is nested in it, may have come to. -/
theorem entries_induction {motive : OptionMap → Cursor → Prop}
    (entry : ∀ options cursor,
      (∀ found between, (mapEntry options).run cursor = .ok found between →
        ∀ grown after, between.Onward after → motive grown after) → motive options cursor)
    (options : OptionMap) (cursor : Cursor) : motive options cursor := by
  induction hLeft : cursor.left using Nat.strongRecOn generalizing options cursor with
  | ind left ih =>
      refine entry options cursor fun found between hFound grown after hOnward => ?_
      have hLess := mapEntry_consumes options cursor found between hFound trivial
      have hLe := hOnward.left_le
      exact ih after.left (by omega) grown after rfl

end Grammar
end ProtoIdl
