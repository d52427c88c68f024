import ProtoIdl.Proofs.Comments.Erasure
import ProtoIdl.Proofs.Link.Resolution
import ProtoIdl.Schema.Link

/-!
# Linking without comments

Linking looks at names, numbers and ranges, and at no comments.  Each part of it, from the
search for a message to the addition of one field, comes to the same without comments, and
so does linking as a whole.
-/

namespace ProtoIdl
namespace Message

/-! ## Parts -/

@[simp] theorem name_withoutComments (message : Message) :
    message.withoutComments.name = message.name := by
  rw [message.withoutComments_eq]

@[simp] theorem messages_withoutComments (message : Message) :
    message.withoutComments.messages = message.messages.map withoutComments := by
  rw [message.withoutComments_eq]

@[simp] theorem fields_withoutComments (message : Message) :
    message.withoutComments.fields = message.fields.map Field.withoutComments := by
  rw [message.withoutComments_eq]

@[simp] theorem extensions_withoutComments (message : Message) :
    message.withoutComments.extensions = message.extensions := by
  rw [message.withoutComments_eq]

/-! ## Places -/

theorem at?_withoutComments (path : MessagePath) (message : Message) :
    at? path message.withoutComments = (at? path message).map withoutComments := by
  induction path generalizing message with
  | nil => rfl
  | cons index path ih =>
      rw [at?, at?, messages_withoutComments, List.getElem?_map]
      cases message.messages[index]? with
      | none => rfl
      | some inner => exact ih inner

/-- A change that comes to the same without comments does so in a list. -/
theorem map_modify_withoutComments {change bare : Message → Message}
    (hChange : ∀ message, (change message).withoutComments = bare message.withoutComments)
    (level : List Message) (index : Nat) :
    (level.modify index change).map withoutComments =
      (level.map withoutComments).modify index bare := by
  apply List.ext_getElem?
  intro place
  simp only [List.getElem?_map, List.getElem?_modify]
  cases level[place]? with
  | none => rfl
  | some inner =>
      by_cases hSame : index = place
      · simp [hSame, hChange inner]
      · simp [hSame]

/-- And it does so at any place below a message. -/
theorem modifyAt_withoutComments {change bare : Message → Message}
    (hChange : ∀ message, (change message).withoutComments = bare message.withoutComments)
    (path : MessagePath) (message : Message) :
    (modifyAt change path message).withoutComments =
      modifyAt bare path message.withoutComments := by
  induction path generalizing message with
  | nil => exact hChange message
  | cons index path ih =>
      rw [modifyAt, modifyAt, message.withoutComments_eq, withoutComments_eq]
      simp only [map_modify_withoutComments ih]

/-! ## Names -/

theorem forall₂_withoutComments (level : List Message) :
    List.Forall₂ (fun message other => other = withoutComments message) level
      (level.map withoutComments) :=
  List.forall₂_map_right_iff.mpr (List.forall₂_same.mpr fun _ _ => rfl)

/-- Names are left as they are. -/
theorem keepsNames_withoutComments :
    KeepsNames fun message other => other = withoutComments message where
  name := by
    rintro message other rfl
    exact message.name_withoutComments.symm
  messages := by
    rintro message other rfl
    rw [messages_withoutComments]
    exact forall₂_withoutComments message.messages

/-! ## Blocks -/

mutual

theorem scopedBlocks_withoutComments (scope : List String) (message : Message) :
    scopedBlocks scope message.withoutComments =
      (scopedBlocks scope message).map fun entry => (entry.1, entry.2.withoutComments) :=
  match message with
  | ⟨own, messages, enums, fields, blocks, extensions, reserved, options, comments⟩ => by
      rw [withoutComments, scopedBlocks, scopedBlocks,
        scopedBlocksIn_withoutComments (scope ++ [own]) messages,
        ExtendBlock.levelWithoutComments_eq]
      simp
termination_by structural message

theorem scopedBlocksIn_withoutComments (scope : List String) (level : List Message) :
    scopedBlocksIn scope (levelWithoutComments level) =
      (scopedBlocksIn scope level).map fun entry => (entry.1, entry.2.withoutComments) :=
  match level with
  | [] => rfl
  | message :: rest => by
      rw [levelWithoutComments, scopedBlocksIn, scopedBlocksIn,
        scopedBlocks_withoutComments scope message, scopedBlocksIn_withoutComments scope rest,
        List.map_append]
termination_by structural level

end

/-! ## Additions -/

/-- Whether a message can take a field does not depend on comments. -/
theorem extensionFault?_withoutComments (message : Message) (field : Field) :
    message.withoutComments.extensionFault? field.withoutComments =
      message.extensionFault? field := by
  have hName : (message.withoutComments.field? field.withoutComments.name).isSome =
      (message.field? field.name).isSome := by
    simp only [field?, fields_withoutComments, List.find?_map, Option.isSome_map]
    rfl
  have hTag : (message.withoutComments.fieldByTag? field.withoutComments.tag).isSome =
      (message.fieldByTag? field.tag).isSome := by
    simp only [fieldByTag?, fields_withoutComments, List.find?_map, Option.isSome_map]
    rfl
  have hOpen : message.withoutComments.acceptsExtension field.withoutComments.tag =
      message.acceptsExtension field.tag := by
    rw [acceptsExtension, extensions_withoutComments]
    rfl
  unfold extensionFault?
  rw [hName, hTag, hOpen, name_withoutComments]
  rfl

theorem addField_withoutComments (message : Message) (field : Field) :
    (message.addField field).withoutComments =
      message.withoutComments.addField field.withoutComments := by
  rw [addField, addField, message.withoutComments_eq, withoutComments_eq]
  simp

end Message

namespace Schema

theorem at?_withoutComments (schema : Schema) (path : MessagePath) :
    schema.withoutComments.at? path = (schema.at? path).map Message.withoutComments := by
  cases path with
  | nil => rfl
  | cons index path =>
      simp only [at?, withoutComments, List.getElem?_map]
      cases schema.messages[index]? with
      | none => rfl
      | some inner => exact inner.at?_withoutComments path

theorem modifyAt_withoutComments (schema : Schema) {change bare : Message → Message}
    (hChange : ∀ message, (change message).withoutComments = bare message.withoutComments)
    (path : MessagePath) :
    (schema.modifyAt change path).withoutComments = schema.withoutComments.modifyAt bare path := by
  cases path with
  | nil => rfl
  | cons index path =>
      simp only [modifyAt, withoutComments, Message.map_modify_withoutComments
        (Message.modifyAt_withoutComments hChange path)]

/-- Every name, from every scope, resolves as it does with comments. -/
theorem locate?_withoutComments (schema : Schema) (scope : List String) (name : String) :
    schema.withoutComments.locate? scope name = schema.locate? scope name := by
  have hPackage : schema.withoutComments.package = schema.package := rfl
  exact locate?_eq Message.keepsNames_withoutComments hPackage
    (Message.forall₂_withoutComments schema.messages) scope name

theorem scopedBlocks_withoutComments (schema : Schema) :
    schema.withoutComments.scopedBlocks =
      schema.scopedBlocks.map fun entry => (entry.1, entry.2.withoutComments) := by
  have hNested := Message.scopedBlocksIn_withoutComments [] schema.messages
  rw [Message.levelWithoutComments_eq] at hNested
  simp only [scopedBlocks, withoutComments, hNested, List.map_append, List.map_map]
  rfl

/-- Fields are added, or refused, alike. -/
theorem addFields_withoutComments (schema : Schema) (path : MessagePath) (fields : List Field) :
    schema.withoutComments.addFields path (fields.map Field.withoutComments) =
      ((schema.addFields path fields).1.withoutComments, (schema.addFields path fields).2) := by
  induction fields generalizing schema with
  | nil => rfl
  | cons field rest ih =>
      -- the field is refused in both schemas or in none
      have hFault : ((schema.withoutComments.at? path).bind fun target =>
          target.extensionFault? field.withoutComments) =
            (schema.at? path).bind fun target => target.extensionFault? field := by
        rw [schema.at?_withoutComments]
        cases schema.at? path with
        | none => rfl
        | some target => exact target.extensionFault?_withoutComments field
      rw [List.map_cons, addFields, addFields, hFault]
      cases (schema.at? path).bind fun target => target.extensionFault? field with
      | some fault => rfl
      | none =>
          have hAdd : ∀ target : Message, (target.addField field).withoutComments =
              target.withoutComments.addField field.withoutComments :=
            fun target => target.addField_withoutComments field
          have hGrown : (schema.modifyAt (fun target => target.addField field)
              path).withoutComments = schema.withoutComments.modifyAt
                (fun target => target.addField field.withoutComments) path :=
            schema.modifyAt_withoutComments hAdd path
          dsimp only
          rw [← ih, hGrown]

theorem linkBlock_withoutComments (schema : Schema) (entry : List String × ExtendBlock) :
    schema.withoutComments.linkBlock (entry.1, entry.2.withoutComments) =
      ((schema.linkBlock entry).1.withoutComments, (schema.linkBlock entry).2) := by
  rcases entry with ⟨scope, target, body⟩
  unfold linkBlock
  rw [ExtendBlock.withoutComments_eq]
  dsimp only
  rw [schema.locate?_withoutComments, Message.fields_withoutComments]
  cases schema.locate? scope target with
  | none => rfl
  | some path => exact schema.addFields_withoutComments path body.fields

theorem linkBlocks_withoutComments (schema : Schema) (entries : List (List String × ExtendBlock)) :
    schema.withoutComments.linkBlocks
        (entries.map fun entry => (entry.1, entry.2.withoutComments)) =
      ((schema.linkBlocks entries).1.withoutComments, (schema.linkBlocks entries).2) := by
  induction entries generalizing schema with
  | nil => rfl
  | cons entry rest ih =>
      rw [List.map_cons, linkBlocks, linkBlocks, schema.linkBlock_withoutComments]
      cases schema.linkBlock entry with
      | mk grown fault =>
          cases fault with
          | some fault => rfl
          | none => exact ih grown

/-- Linking comes to the same without comments. -/
theorem link_withoutComments (schema : Schema) :
    schema.withoutComments.link = (schema.link.1.withoutComments, schema.link.2) := by
  rw [link, link, schema.scopedBlocks_withoutComments, schema.linkBlocks_withoutComments]

end Schema
end ProtoIdl
