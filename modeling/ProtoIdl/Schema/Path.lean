import ProtoIdl.Schema.Basic

/-!
# Positions of messages in a schema

A path gives the index of a top-level message, then the index of a message nested in
that one, and so on.  `Schema.at?` reads the message at a path, and
`Schema.modifyAt` changes it and leaves every other message alone.
-/

namespace ProtoIdl

/-- The indices that lead from the top level down to a message. -/
abbrev MessagePath := List Nat

namespace Message

/-- The message that a path leads to from this one. -/
def at? : MessagePath → Message → Option Message
  | [], message => some message
  | index :: path, message => message.messages[index]?.bind (at? path)

/-- Change the message that a path leads to from this one. -/
def modifyAt (change : Message → Message) : MessagePath → Message → Message
  | [], message => change message
  | index :: path, message =>
      { message with messages := message.messages.modify index (modifyAt change path) }

end Message

namespace Schema

/-- The message at a path; the empty path leads to none. -/
def at? (schema : Schema) : MessagePath → Option Message
  | [] => none
  | index :: path => schema.messages[index]?.bind (Message.at? path)

/-- Change the message at a path. -/
def modifyAt (schema : Schema) (change : Message → Message) : MessagePath → Schema
  | [] => schema
  | index :: path =>
      { schema with messages := schema.messages.modify index (Message.modifyAt change path) }

end Schema

/-- The changed message is found at the path where it was changed. -/
theorem Message.at?_modifyAt (change : Message → Message) (path : MessagePath)
    (message : Message) :
    (message.modifyAt change path).at? path = (message.at? path).map change := by
  induction path generalizing message with
  | nil => rfl
  | cons index path ih =>
      simp only [modifyAt, at?, List.getElem?_modify_eq]
      cases message.messages[index]? with
      | none => rfl
      | some inner => exact ih inner

/-- The changed message is found at the path where it was changed. -/
theorem Schema.at?_modifyAt (schema : Schema) (change : Message → Message)
    (path : MessagePath) :
    (schema.modifyAt change path).at? path = (schema.at? path).map change := by
  cases path with
  | nil => rfl
  | cons index path =>
      simp only [modifyAt, at?, List.getElem?_modify_eq]
      cases schema.messages[index]? with
      | none => rfl
      | some inner => exact inner.at?_modifyAt change path

end ProtoIdl
