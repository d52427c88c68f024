import ProtoIdl.Proofs.Link.Order

/-!
# What `extend` blocks hold

The body of an `extend` block is a message, and nothing in its type keeps it from having all
that messages have.  `Message.HoldsFields` says that fields are all it has.  Blocks may be
declared in messages and in the bodies of blocks; the linker looks for them in messages alone.
Where all blocks hold fields alone, no block lies in another, and so the linker finds every
one of them and checks all its fields.
-/

namespace ProtoIdl

/-! ## Blocks of a tree -/

namespace Message

/-- Fields are all that a message declares. -/
structure HoldsFields (message : Message) : Prop where
  messages : message.messages = []
  enums : message.enums = []
  extendBlocks : message.extendBlocks = []
  extensions : message.extensions = []
  reserved : message.reserved = []
  options : message.options = ∅

/-- A block is declared in a message, at any depth in messages and in bodies of blocks. -/
inductive Declares (block : ExtendBlock) : Message → Prop where
  | own {message : Message} (hMem : block ∈ message.extendBlocks) : Declares block message
  | inMessage {message inner : Message} (hMem : inner ∈ message.messages)
      (hInner : Declares block inner) : Declares block message
  | inBlock {message : Message} {outer : ExtendBlock} (hMem : outer ∈ message.extendBlocks)
      (hBody : Declares block outer.body) : Declares block message

/-- Every block in a message holds fields alone. -/
def BlocksHoldFields (message : Message) : Prop :=
  ∀ block, message.Declares block → block.body.HoldsFields

variable {message : Message} {block : ExtendBlock}

theorem declares_iff :
    message.Declares block ↔ block ∈ message.extendBlocks ∨
      (∃ inner ∈ message.messages, inner.Declares block) ∨
        ∃ outer ∈ message.extendBlocks, outer.body.Declares block := by
  constructor
  · intro hDeclares
    cases hDeclares with
    | own hMem => exact .inl hMem
    | inMessage hMem hInner => exact .inr (.inl ⟨_, hMem, hInner⟩)
    | inBlock hMem hBody => exact .inr (.inr ⟨_, hMem, hBody⟩)
  · rintro (hMem | ⟨inner, hMem, hInner⟩ | ⟨outer, hMem, hBody⟩)
    · exact .own hMem
    · exact .inMessage hMem hInner
    · exact .inBlock hMem hBody

/-- Without messages and blocks inside, no block is declared. -/
theorem HoldsFields.not_declares (hHolds : message.HoldsFields) : ¬message.Declares block := by
  rw [declares_iff, hHolds.messages, hHolds.extendBlocks]
  simp

end Message

/-- A block is declared in a schema, at any depth. -/
def Schema.Declares (schema : Schema) (block : ExtendBlock) : Prop :=
  block ∈ schema.extendBlocks ∨ (∃ message ∈ schema.messages, message.Declares block) ∨
    ∃ outer ∈ schema.extendBlocks, outer.body.Declares block

/-- Every block in a schema holds fields alone. -/
def Schema.BlocksHoldFields (schema : Schema) : Prop :=
  ∀ block, schema.Declares block → block.body.HoldsFields

/-- The condition on the blocks of a tree, by its parts: that each of the messages and of the
blocks meets it. -/
def PartsHoldFields (messages : List Message) (blocks : List ExtendBlock) : Prop :=
  (∀ message ∈ messages, message.BlocksHoldFields) ∧
    ∀ block ∈ blocks, block.body.HoldsFields ∧ block.body.BlocksHoldFields

theorem partsHoldFields_iff {messages : List Message} {blocks : List ExtendBlock} :
    PartsHoldFields messages blocks ↔
      ∀ block, (block ∈ blocks ∨ (∃ message ∈ messages, message.Declares block) ∨
        ∃ outer ∈ blocks, outer.body.Declares block) → block.body.HoldsFields := by
  constructor
  · rintro ⟨hMessages, hBlocks⟩ block (hMem | ⟨message, hMem, hDeclares⟩ | ⟨outer, hMem, hDeclares⟩)
    · exact (hBlocks block hMem).1
    · exact hMessages message hMem block hDeclares
    · exact (hBlocks outer hMem).2 block hDeclares
  · intro hHolds
    refine ⟨fun message hMem block hDeclares => ?_,
      fun block hMem => ⟨?_, fun inner hDeclares => ?_⟩⟩
    · exact hHolds block (.inr (.inl ⟨message, hMem, hDeclares⟩))
    · exact hHolds block (.inl hMem)
    · exact hHolds inner (.inr (.inr ⟨block, hMem, hDeclares⟩))

theorem Message.blocksHoldFields_iff {message : Message} :
    message.BlocksHoldFields ↔ PartsHoldFields message.messages message.extendBlocks := by
  rw [partsHoldFields_iff, BlocksHoldFields]
  exact forall_congr' fun block => imp_congr_left declares_iff

theorem Schema.blocksHoldFields_iff {schema : Schema} :
    schema.BlocksHoldFields ↔ PartsHoldFields schema.messages schema.extendBlocks :=
  partsHoldFields_iff.symm

/-! ## Linking changes no block -/

namespace Message

variable {extra : MessagePath → List Field}

@[simp] theorem extendBlocks_extendFields (message : Message) :
    (message.extendFields extra).extendBlocks = message.extendBlocks := by
  rw [extendFields_eq]

theorem exists_mem_extendLevel {holds : Message → Prop} (level : List Message)
    (hSame : ∀ message ∈ level, ∀ extra, holds (message.extendFields extra) ↔ holds message)
    (index : Nat) :
    (∃ message ∈ extendLevel extra index level, holds message) ↔
      ∃ message ∈ level, holds message := by
  induction level generalizing index with
  | nil => rfl
  | cons message rest ih =>
      obtain ⟨hMessage, hRest⟩ := List.forall_mem_cons.mp hSame
      simp only [extendLevel, List.exists_mem_cons_iff, hMessage, ih hRest]

/-- With further fields a message declares the blocks that it declares without. -/
theorem declares_extendFields (block : ExtendBlock) (message : Message) :
    ∀ extra, (message.extendFields extra).Declares block ↔ message.Declares block := by
  induction message using induction_on_parts with
  | hStep message ihMessages ihBlocks =>
      intro extra
      rw [declares_iff, declares_iff, extendBlocks_extendFields, messages_extendFields,
        exists_mem_extendLevel message.messages ihMessages]

mutual

theorem scopedBlocks_extendFields (extra : MessagePath → List Field) (scope : List String)
    (message : Message) : scopedBlocks scope (message.extendFields extra) =
      scopedBlocks scope message :=
  match message with
  | ⟨name, messages, enums, fields, blocks, extensions, reserved, options, comments⟩ => by
      rw [extendFields, scopedBlocks, scopedBlocks,
        scopedBlocksIn_extendLevel extra 0 (scope ++ [name]) messages]
termination_by structural message

/-- Further fields change neither blocks nor the names around them. -/
theorem scopedBlocksIn_extendLevel (extra : MessagePath → List Field) (index : Nat)
    (scope : List String) (level : List Message) :
    scopedBlocksIn scope (extendLevel extra index level) = scopedBlocksIn scope level :=
  match level with
  | [] => rfl
  | message :: rest => by
      rw [extendLevel, scopedBlocksIn, scopedBlocksIn, scopedBlocks_extendFields,
        scopedBlocksIn_extendLevel extra (index + 1) scope rest]
termination_by structural level

end

end Message

namespace Schema

variable {schema linked : Schema}

theorem declares_extendFields (schema : Schema) (extra : MessagePath → List Field)
    (block : ExtendBlock) : (schema.extendFields extra).Declares block ↔ schema.Declares block := by
  unfold Declares extendFields
  rw [Message.exists_mem_extendLevel schema.messages fun message _ =>
    message.declares_extendFields block]

theorem scopedBlocks_extendFields (schema : Schema) (extra : MessagePath → List Field) :
    (schema.extendFields extra).scopedBlocks = schema.scopedBlocks := by
  unfold scopedBlocks extendFields
  rw [Message.scopedBlocksIn_extendLevel]

/-! ## Blocks that the linker finds -/

end Schema

namespace Message

variable {message : Message} {block : ExtendBlock}

theorem mem_scopedBlocksIn {scope : List String} {entry : List String × ExtendBlock}
    {level : List Message} (hMem : message ∈ level) (hEntry : entry ∈ message.scopedBlocks scope) :
    entry ∈ scopedBlocksIn scope level := by
  induction level with
  | nil => cases hMem
  | cons first rest ih =>
      rw [scopedBlocksIn, List.mem_append]
      rcases List.mem_cons.mp hMem with rfl | hRest
      · exact .inl hEntry
      · exact .inr (ih hRest)

/-- Where blocks hold fields alone, the linker finds all that are declared. -/
theorem exists_mem_scopedBlocks (hDeclares : message.Declares block)
    (hHolds : message.BlocksHoldFields) :
    ∀ scope, ∃ inner, (inner, block) ∈ message.scopedBlocks scope := by
  induction hDeclares with
  | @own message hMem =>
      intro scope
      cases message
      rw [scopedBlocks]
      exact ⟨_, List.mem_append_left _ (List.mem_map_of_mem hMem)⟩
  | @inMessage message inner hMem hInner ih =>
      intro scope
      obtain ⟨found, hFound⟩ := ih (fun block hBlock => hHolds block (.inMessage hMem hBlock))
        (scope ++ [message.name])
      cases message
      rw [scopedBlocks]
      exact ⟨found, List.mem_append_right _ (mem_scopedBlocksIn hMem hFound)⟩
  | inBlock hMem hBody ih =>
      -- a block in the body of another would be more than a field there
      exact absurd hBody (hHolds _ (.own hMem)).not_declares

end Message

namespace Schema

variable {schema linked : Schema} {block : ExtendBlock}

/-- Where blocks hold fields alone, the linker finds all that are declared. -/
theorem exists_mem_scopedBlocks (hHolds : schema.BlocksHoldFields)
    (hDeclares : schema.Declares block) : ∃ scope, (scope, block) ∈ schema.scopedBlocks := by
  unfold scopedBlocks
  rcases hDeclares with hMem | ⟨message, hMem, hInner⟩ | ⟨outer, hMem, hBody⟩
  · exact ⟨[], List.mem_append_left _ (List.mem_map_of_mem hMem)⟩
  · have hMessage : message.BlocksHoldFields :=
      fun other hOther => hHolds other (.inr (.inl ⟨message, hMem, hOther⟩))
    obtain ⟨scope, hScope⟩ := Message.exists_mem_scopedBlocks hInner hMessage []
    exact ⟨scope, List.mem_append_right _ (Message.mem_scopedBlocksIn hMem hScope)⟩
  · exact absurd hBody (hHolds outer (.inl hMem)).not_declares

/-- The fields of a block are in the message that the block names, which has opened their
numbers. -/
def Extends (schema : Schema) (scope : List String) (block : ExtendBlock) : Prop :=
  ∀ path, schema.locate? scope block.target = some path →
    ∃ target, schema.at? path = some target ∧
      ∀ field ∈ block.body.fields, target.acceptsExtension field.tag = true ∧
        field ∈ target.fields

/-- A schema that could be linked has the fields of every block that the linker found. -/
theorem extends_of_link (hLink : schema.link = (linked, none)) {scope : List String}
    (hMem : (scope, block) ∈ linked.scopedBlocks) : linked.Extends scope block := by
  have hLinks := schema.links_link
  rw [hLink] at hLinks
  obtain ⟨hAdmits, rfl⟩ := hLinks.of_finish
  rw [List.nil_append, scopedBlocks_extendFields] at hMem
  intro path hLocate
  rw [List.nil_append, locate?_extendFields] at hLocate
  obtain ⟨target, hTarget, -⟩ := exists_at?_of_locate? hLocate
  refine ⟨_, by rw [List.nil_append, at?_extendFields, hTarget]; rfl, fun field hField => ?_⟩
  -- the field is one of the additions, and what can be added is open
  have hPlan : (path, field) ∈ schema.linkPlan := by
    refine List.mem_flatMap.mpr ⟨(scope, block), hMem, ?_⟩
    rw [blockAdditions, hLocate]
    exact List.mem_map_of_mem hField
  obtain ⟨earlier, later, hSplit⟩ := List.append_of_mem hPlan
  obtain ⟨other, hOther, hOpens, -⟩ := hAdmits earlier (path, field) later hSplit
  rw [hTarget] at hOther
  cases hOther
  refine ⟨?_, ?_⟩
  · rw [Message.acceptsExtension_extendFields]
    exact (target.acceptsExtension_iff _).mpr hOpens
  · rw [Message.fields_extendFields, List.append_nil]
    refine List.mem_append_right _ (List.mem_map.mpr ⟨(path, field), ?_, rfl⟩)
    exact List.mem_filter.mpr ⟨hPlan, beq_self_eq_true _⟩

/-- Linking leaves the blocks as they are. -/
theorem declares_link (hLink : schema.link = (linked, none)) :
    linked.Declares block ↔ schema.Declares block := by
  have hLinks := schema.links_link
  rw [hLink] at hLinks
  rw [hLinks.of_finish.2, declares_extendFields]

end Schema
end ProtoIdl
