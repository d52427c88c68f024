import ProtoIdl.Proofs.Link.Resolution
import ProtoIdl.Schema.Link

/-!
# Schemas with further fields

`schema.extendFields extra` gives the message at each path the fields that `extra` lists for
that path, after its own, and changes nothing else.  Names are resolved in such a schema as
in the one it comes from, because resolution looks at the names of messages alone.  Adding
one more field to the message at a path is the same as listing one more field for the path.
-/

namespace ProtoIdl

/-! ## Further fields -/

mutual

/-- A message with further fields for itself and for the messages inside, by their paths. -/
def Message.extendFields (extra : MessagePath → List Field) : Message → Message
  | ⟨name, messages, enums, fields, blocks, extensions, reserved, options, comments⟩ =>
      ⟨name, Message.extendLevel extra 0 messages, enums, fields ++ extra [], blocks, extensions,
        reserved, options, comments⟩

/-- Messages with further fields; the first of them stands at `index`. -/
def Message.extendLevel (extra : MessagePath → List Field) (index : Nat) :
    List Message → List Message
  | [] => []
  | message :: rest =>
      message.extendFields (fun path => extra (index :: path)) ::
        Message.extendLevel extra (index + 1) rest

end

/-- A schema with further fields for its messages, by their paths. -/
def Schema.extendFields (schema : Schema) (extra : MessagePath → List Field) : Schema :=
  { schema with messages := Message.extendLevel extra 0 schema.messages }

/-- One more field for the message at a path. -/
def addExtra (extra : MessagePath → List Field) (path : MessagePath) (field : Field) :
    MessagePath → List Field :=
  fun other => if other = path then extra other ++ [field] else extra other

namespace Message

variable {extra : MessagePath → List Field}

theorem extendFields_eq (extra : MessagePath → List Field) (message : Message) :
    message.extendFields extra =
      { message with
        messages := extendLevel extra 0 message.messages
        fields := message.fields ++ extra [] } := by
  cases message
  rfl

@[simp] theorem name_extendFields (message : Message) :
    (message.extendFields extra).name = message.name := by
  rw [extendFields_eq]

@[simp] theorem messages_extendFields (message : Message) :
    (message.extendFields extra).messages = extendLevel extra 0 message.messages := by
  rw [extendFields_eq]

@[simp] theorem fields_extendFields (message : Message) :
    (message.extendFields extra).fields = message.fields ++ extra [] := by
  rw [extendFields_eq]

@[simp] theorem acceptsExtension_extendFields (message : Message) (tag : Nat) :
    (message.extendFields extra).acceptsExtension tag = message.acceptsExtension tag := by
  rw [extendFields_eq]
  rfl

/-- Only the fields listed for the paths of a level matter to it. -/
theorem extendLevel_congr {other : MessagePath → List Field} (index : Nat) (level : List Message)
    (hSame : ∀ later path, index ≤ later → extra (later :: path) = other (later :: path)) :
    extendLevel extra index level = extendLevel other index level := by
  induction level generalizing index with
  | nil => rfl
  | cons message rest ih =>
      have hHead : (fun path => extra (index :: path)) = fun path => other (index :: path) :=
        funext fun path => hSame index path (Nat.le_refl index)
      have hRest := ih (index + 1) fun later path hLater => hSame later path (by omega)
      rw [extendLevel, extendLevel, hHead, hRest]

mutual

/-- Without further fields nothing changes. -/
theorem extendFields_none (message : Message) : message.extendFields (fun _ => []) = message :=
  match message with
  | ⟨name, messages, enums, fields, blocks, extensions, reserved, options, comments⟩ => by
      rw [extendFields, extendLevel_none 0 messages, List.append_nil]
termination_by structural message

theorem extendLevel_none (index : Nat) (level : List Message) :
    extendLevel (fun _ => []) index level = level :=
  match level with
  | [] => rfl
  | message :: rest => by
      rw [extendLevel, extendFields_none message, extendLevel_none (index + 1) rest]
termination_by structural level

end

/-! ## Positions -/

theorem getElem?_extendLevel (level : List Message) (index place : Nat) :
    (extendLevel extra index level)[place]? =
      level[place]?.map fun message =>
        message.extendFields fun path => extra ((index + place) :: path) := by
  induction level generalizing index place with
  | nil => rfl
  | cons message rest ih =>
      rw [extendLevel]
      cases place with
      | zero => rfl
      | succ place =>
          have hPlace : index + 1 + place = index + (place + 1) := by omega
          rw [List.getElem?_cons_succ, List.getElem?_cons_succ, ih, hPlace]

/-- The message at a path has the fields that are listed from there on. -/
theorem at?_extendFields (path : MessagePath) (message : Message) :
    (message.extendFields extra).at? path =
      (message.at? path).map fun inner =>
        inner.extendFields fun below => extra (path ++ below) := by
  induction path generalizing message extra with
  | nil => rfl
  | cons index path ih =>
      rw [at?, at?, messages_extendFields, getElem?_extendLevel, Nat.zero_add]
      cases message.messages[index]? with
      | none => rfl
      | some inner => exact ih inner

/-! ## Adding a field -/

/-- A field added at a path of a level is one more field listed for the path. -/
theorem modify_extendLevel {path : MessagePath} {field : Field}
    (hInner : ∀ (extra : MessagePath → List Field) (message : Message),
      (message.extendFields extra).modifyAt (fun target => target.addField field) path =
        message.extendFields (addExtra extra path field))
    (extra : MessagePath → List Field) (level : List Message) (index place : Nat) :
    (extendLevel extra index level).modify place
        (modifyAt (fun target => target.addField field) path) =
      extendLevel (addExtra extra ((index + place) :: path) field) index level := by
  induction level generalizing index place with
  | nil => simp [extendLevel]
  | cons message rest ih =>
      rw [extendLevel, extendLevel]
      cases place with
      | zero =>
          -- the field is for the first message, and the later ones are listed as before
          have hHead : addExtra (fun below => extra (index :: below)) path field =
              fun below => addExtra extra ((index + 0) :: path) field (index :: below) := by
            funext below
            simp [addExtra]
          have hRest : extendLevel extra (index + 1) rest =
              extendLevel (addExtra extra ((index + 0) :: path) field) (index + 1) rest := by
            refine extendLevel_congr _ rest fun later below hLater => ?_
            have hNe : later :: below ≠ (index + 0) :: path := by
              rintro ⟨⟩
              omega
            rw [addExtra, if_neg hNe]
          rw [List.modify_zero_cons, hInner, hHead, hRest]
      | succ place =>
          -- the field is for a later message, and the first one is listed as before
          have hHead : (fun below => extra (index :: below)) =
              fun below => addExtra extra ((index + (place + 1)) :: path) field
                (index :: below) := by
            funext below
            have hNe : index :: below ≠ (index + (place + 1)) :: path := by
              intro hSame
              have hIndex := (List.cons_eq_cons.mp hSame).1
              omega
            rw [addExtra, if_neg hNe]
          have hPlace : index + 1 + place = index + (place + 1) := by omega
          rw [List.modify_succ_cons, ih, hPlace, ← hHead]

/-- A field added at a path is one more field listed for the path. -/
theorem modifyAt_extendFields (extra : MessagePath → List Field) (path : MessagePath)
    (field : Field) (message : Message) :
    (message.extendFields extra).modifyAt (fun target => target.addField field) path =
      message.extendFields (addExtra extra path field) := by
  induction path generalizing message extra with
  | nil =>
      have hLevel : extendLevel extra 0 message.messages =
          extendLevel (addExtra extra [] field) 0 message.messages :=
        extendLevel_congr 0 _ fun later below _ => by simp [addExtra]
      have hOwn : addExtra extra [] field [] = extra [] ++ [field] := by simp [addExtra]
      rw [modifyAt, addField, extendFields_eq, extendFields_eq, hLevel, hOwn, List.append_assoc]
  | cons index path ih =>
      -- the field is for a message further inside, so this one has none to add itself
      have hLevel := modify_extendLevel ih extra message.messages 0 index
      have hOwn : addExtra extra (index :: path) field [] = extra [] := by simp [addExtra]
      rw [Nat.zero_add] at hLevel
      rw [modifyAt, extendFields_eq, extendFields_eq, hOwn]
      simp only [hLevel]

/-! ## Names -/

/-- One by one, the messages of a level become those with further fields. -/
theorem forall₂_extendLevel (level : List Message) (index : Nat) :
    List.Forall₂ (fun message other => ∃ extra, other = extendFields extra message) level
      (extendLevel extra index level) := by
  induction level generalizing index with
  | nil => exact .nil
  | cons message rest ih => exact .cons ⟨_, rfl⟩ (ih (index + 1))

/-- Further fields change no name. -/
theorem keepsNames_extendFields :
    KeepsNames fun message other => ∃ extra, other = extendFields extra message where
  name := by
    rintro message other ⟨extra, rfl⟩
    exact message.name_extendFields.symm
  messages := by
    rintro message other ⟨extra, rfl⟩
    rw [messages_extendFields]
    exact forall₂_extendLevel message.messages 0

end Message

namespace Schema

variable {extra : MessagePath → List Field}

theorem extendFields_none (schema : Schema) : schema.extendFields (fun _ => []) = schema := by
  rw [extendFields, Message.extendLevel_none]

/-- The message at a path has the fields that are listed from there on. -/
theorem at?_extendFields (schema : Schema) (path : MessagePath) :
    (schema.extendFields extra).at? path =
      (schema.at? path).map fun inner => inner.extendFields fun below => extra (path ++ below) := by
  cases path with
  | nil => rfl
  | cons index path =>
      rw [at?, at?, extendFields, Message.getElem?_extendLevel, Nat.zero_add]
      cases schema.messages[index]? with
      | none => rfl
      | some inner => exact inner.at?_extendFields path

/-- A field added at the path of a message is one more field listed for the path. -/
theorem modifyAt_extendFields (schema : Schema) {path : MessagePath} (hPath : path ≠ [])
    (field : Field) :
    (schema.extendFields extra).modifyAt (fun target => target.addField field) path =
      schema.extendFields (addExtra extra path field) := by
  cases path with
  | nil => exact absurd rfl hPath
  | cons index path =>
      have hLevel := Message.modify_extendLevel
        (fun extra message => message.modifyAt_extendFields extra path field) extra
        schema.messages 0 index
      rw [Nat.zero_add] at hLevel
      rw [extendFields, modifyAt, extendFields, hLevel]

/-- Every name, from every scope, resolves as it does without further fields. -/
theorem locate?_extendFields (schema : Schema) (scope : List String) (name : String) :
    (schema.extendFields extra).locate? scope name = schema.locate? scope name := by
  have hPackage : (schema.extendFields extra).package = schema.package := rfl
  exact locate?_eq Message.keepsNames_extendFields hPackage
    (Message.forall₂_extendLevel schema.messages 0) scope name

end Schema
end ProtoIdl
