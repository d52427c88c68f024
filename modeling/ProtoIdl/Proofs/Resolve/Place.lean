import Mathlib.Data.List.Infix
import ProtoIdl.Schema.Path

/-!
# Changes at one place of a schema

The message at a path can be changed without touching any other.  A message that lies neither
above nor below the path stays as it is, and one above it keeps everything but the messages
nested in it.  Below the path lie the messages that the change leaves there.
-/

namespace ProtoIdl

variable {change : Message → Message} {target path : MessagePath}

namespace Message

/-- The message without the messages nested in it. -/
def alone (message : Message) : Message :=
  { message with messages := [] }

theorem at?_cons (index : Nat) (path : MessagePath) (message : Message) :
    message.at? (index :: path) = message.messages[index]?.bind (at? path) := rfl

theorem at?_append (first second : MessagePath) :
    at? (first ++ second) = fun message => (message.at? first).bind (at? second) := by
  induction first with
  | nil => rfl
  | cons index first ih =>
      funext message
      rw [List.cons_append, at?_cons, at?_cons, ih, Option.bind_assoc]

/-- What a path shows of one level does not change with a message of the level if the path does
not start there, or if it shows the same of the changed message. -/
theorem observe_modify (observe : Option Message → β) {index place : Nat}
    (hChanged : index = place →
      ∀ inner : Message, observe ((change inner).at? path) = observe (inner.at? path))
    (level : List Message) :
    observe ((level.modify index change)[place]?.bind (at? path)) =
      observe (level[place]?.bind (at? path)) := by
  by_cases hPlace : index = place
  · subst hPlace
    rw [List.getElem?_modify_eq]
    cases level[index]? with
    | none => rfl
    | some inner => exact hChanged rfl inner
  · rw [List.getElem?_modify_ne _ _ hPlace]

/-- A message that is not below the path of a change keeps everything but the messages nested
in it. -/
theorem alone_at?_modifyAt (hPath : ¬target <+: path) (message : Message) :
    ((message.modifyAt change target).at? path).map alone = (message.at? path).map alone := by
  induction target generalizing path message with
  | nil => exact absurd List.nil_prefix hPath
  | cons index target ih =>
      cases path with
      | nil => rfl
      | cons place path =>
          refine observe_modify (Option.map alone) (fun hPlace inner => ih ?_ inner) message.messages
          exact fun hPrefix => hPath (List.cons_prefix_cons.mpr ⟨hPlace, hPrefix⟩)

/-- A message that is neither above nor below the path of a change stays as it is. -/
theorem at?_modifyAt_of_apart (hBelow : ¬target <+: path) (hAbove : ¬path <+: target)
    (message : Message) : (message.modifyAt change target).at? path = message.at? path := by
  induction target generalizing path message with
  | nil => exact absurd List.nil_prefix hBelow
  | cons index target ih =>
      cases path with
      | nil => exact absurd List.nil_prefix hAbove
      | cons place path =>
          refine observe_modify id (fun hPlace inner => ih ?_ ?_ inner) message.messages
          · exact fun hPrefix => hBelow (List.cons_prefix_cons.mpr ⟨hPlace, hPrefix⟩)
          · exact fun hPrefix => hAbove (List.cons_prefix_cons.mpr ⟨hPlace.symm, hPrefix⟩)

end Message

namespace Schema

theorem at?_append {first : MessagePath} (hFirst : first ≠ []) (second : MessagePath)
    (schema : Schema) :
    schema.at? (first ++ second) = (schema.at? first).bind (Message.at? second) := by
  cases first with
  | nil => exact absurd rfl hFirst
  | cons index first =>
      rw [List.cons_append, at?, at?, Message.at?_append, Option.bind_assoc]

/-- The second schema is the first one after the message at a path was changed, and all else is
as it was. -/
structure ChangedAt (before after : Schema) (target : MessagePath)
    (change : Message → Message) : Prop where
  /-- What is not a message stays. -/
  rest : { after with messages := before.messages } = before
  /-- At the path and below it stands the changed message. -/
  below (path : MessagePath) :
    after.at? (target ++ path) = ((before.at? target).map change).bind (Message.at? path)
  /-- Messages on the way to the path change in the messages nested in them alone. -/
  above (path : MessagePath) : ¬target <+: path →
    (after.at? path).map Message.alone = (before.at? path).map Message.alone
  /-- Messages that are not on the way either stay as they are. -/
  apart (path : MessagePath) : ¬target <+: path → ¬path <+: target →
    after.at? path = before.at? path

/-- A change that keeps the messages nested in the message leaves every other message with what
it has. -/
theorem ChangedAt.alone_at?_of_ne {before after : Schema}
    (hChanged : before.ChangedAt after target change) (hTarget : target ≠ [])
    (hKeeps : ∀ message : Message, (change message).messages = message.messages)
    (hOther : path ≠ target) :
    (after.at? path).map Message.alone = (before.at? path).map Message.alone := by
  by_cases hPath : target <+: path
  · obtain ⟨below, rfl⟩ := hPath
    cases below with
    | nil => exact absurd (List.append_nil target) hOther
    | cons place below =>
        rw [hChanged.below, at?_append hTarget]
        cases before.at? target with
        | none => rfl
        | some message =>
            rw [Option.map_some, Option.bind_some, Option.bind_some, Message.at?_cons,
              Message.at?_cons, hKeeps]
  · exact hChanged.above path hPath

/-- A message can be changed in its place. -/
theorem changedAt_modifyAt (hTarget : target ≠ []) (schema : Schema)
    (change : Message → Message) :
    schema.ChangedAt (schema.modifyAt change target) target change := by
  cases target with
  | nil => exact absurd rfl hTarget
  | cons index target =>
      refine ⟨rfl, fun path => ?_, fun path hPath => ?_, fun path hBelow hAbove => ?_⟩
      · rw [at?_append hTarget, at?_modifyAt]
      · cases path with
        | nil => rfl
        | cons place path =>
            refine Message.observe_modify (Option.map Message.alone)
              (fun hPlace inner => inner.alone_at?_modifyAt ?_) schema.messages
            exact fun hPrefix => hPath (List.cons_prefix_cons.mpr ⟨hPlace, hPrefix⟩)
      · cases path with
        | nil => rfl
        | cons place path =>
            refine Message.observe_modify id
              (fun hPlace inner => inner.at?_modifyAt_of_apart ?_ ?_) schema.messages
            · exact fun hPrefix => hBelow (List.cons_prefix_cons.mpr ⟨hPlace, hPrefix⟩)
            · exact fun hPrefix => hAbove (List.cons_prefix_cons.mpr ⟨hPlace.symm, hPrefix⟩)

end Schema
end ProtoIdl
