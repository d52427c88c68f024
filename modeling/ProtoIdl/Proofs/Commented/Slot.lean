import ProtoIdl.Proofs.Local.Join

/-!
# Places for comments in a tree

Comments can be kept by messages, enums, enum values, fields, services and methods, at any depth.
A slot of a tree is one of these declarations in it, given as the tree itself in dependence on the
comments of that declaration: `family comments` is the tree with these comments at this one place,
and with everything else as it is.

What is put together from parts has the slots of its parts.
-/

namespace ProtoIdl

/-- A declaration that keeps the comments in front of it. -/
inductive Declaration where
  | message (decl : Message)
  | enum (decl : EnumDecl)
  | value (value : EnumValue)
  | field (field : Field)
  | service (decl : Service)
  | method (method : RpcMethod)

/-! ## Slots -/

/-- A slot of an entry of a list. -/
inductive ListSlot {α : Type} (Slot : α → Declaration → (List String → α) → Prop) :
    List α → Declaration → (List String → List α) → Prop
  | here {x : α} {rest : List α} {target : Declaration} {family : List String → α}
      (hSlot : Slot x target family) :
      ListSlot Slot (x :: rest) target fun comments => family comments :: rest
  | later {x : α} {rest : List α} {target : Declaration} {family : List String → List α}
      (hSlot : ListSlot Slot rest target family) :
      ListSlot Slot (x :: rest) target fun comments => x :: family comments

/-- An enum value is a slot. -/
inductive EnumValue.Slot (value : EnumValue) : Declaration → (List String → EnumValue) → Prop
  | own : Slot value (.value value) fun comments => { value with comments := comments }

/-- A field is a slot. -/
inductive Field.Slot (field : Field) : Declaration → (List String → Field) → Prop
  | own : Slot field (.field field) fun comments => { field with comments := comments }

/-- A method is a slot. -/
inductive RpcMethod.Slot (method : RpcMethod) : Declaration → (List String → RpcMethod) → Prop
  | own : Slot method (.method method) fun comments => { method with comments := comments }

/-- A slot inside an enum. -/
inductive EnumDecl.MemberSlot (decl : EnumDecl) : Declaration → (List String → EnumDecl) → Prop
  | value {target : Declaration} {family : List String → List EnumValue}
      (hSlot : ListSlot EnumValue.Slot decl.values target family) :
      MemberSlot decl target fun comments => { decl with values := family comments }

/-- An enum is a slot, and there are those inside it. -/
inductive EnumDecl.Slot (decl : EnumDecl) : Declaration → (List String → EnumDecl) → Prop
  | own : Slot decl (.enum decl) fun comments => { decl with comments := comments }
  | member {target : Declaration} {family : List String → EnumDecl}
      (hSlot : decl.MemberSlot target family) : Slot decl target family

/-- A slot inside a service. -/
inductive Service.MemberSlot (service : Service) : Declaration → (List String → Service) → Prop
  | method {target : Declaration} {family : List String → List RpcMethod}
      (hSlot : ListSlot RpcMethod.Slot service.methods target family) :
      MemberSlot service target fun comments => { service with methods := family comments }

/-- A service is a slot, and there are those inside it. -/
inductive Service.Slot (service : Service) : Declaration → (List String → Service) → Prop
  | own : Slot service (.service service) fun comments => { service with comments := comments }
  | member {target : Declaration} {family : List String → Service}
      (hSlot : service.MemberSlot target family) : Slot service target family

mutual

/-- A slot inside a message. -/
inductive Message.MemberSlot : Message → Declaration → (List String → Message) → Prop
  | message {decl : Message} {target : Declaration} {family : List String → List Message}
      (hSlot : ListSlot Message.Slot decl.messages target family) :
      Message.MemberSlot decl target fun comments => { decl with messages := family comments }
  | enum {decl : Message} {target : Declaration} {family : List String → List EnumDecl}
      (hSlot : ListSlot EnumDecl.Slot decl.enums target family) :
      Message.MemberSlot decl target fun comments => { decl with enums := family comments }
  | field {decl : Message} {target : Declaration} {family : List String → List Field}
      (hSlot : ListSlot Field.Slot decl.fields target family) :
      Message.MemberSlot decl target fun comments => { decl with fields := family comments }
  | block {decl : Message} {target : Declaration} {family : List String → List ExtendBlock}
      (hSlot : ListSlot ExtendBlock.Slot decl.extendBlocks target family) :
      Message.MemberSlot decl target fun comments =>
        { decl with extendBlocks := family comments }

/-- A message is a slot, and there are those inside it. -/
inductive Message.Slot : Message → Declaration → (List String → Message) → Prop
  | own (decl : Message) :
      Message.Slot decl (.message decl) fun comments => { decl with comments := comments }
  | member {decl : Message} {target : Declaration} {family : List String → Message}
      (hSlot : Message.MemberSlot decl target family) : Message.Slot decl target family

/-- An `extend` block is none, but it has those of what it declares. -/
inductive ExtendBlock.Slot : ExtendBlock → Declaration → (List String → ExtendBlock) → Prop
  | member {block : ExtendBlock} {target : Declaration} {family : List String → Message}
      (hSlot : Message.MemberSlot block.body target family) :
      ExtendBlock.Slot block target fun comments => { block with body := family comments }

end

/-- A slot of a schema. -/
inductive Schema.Slot (schema : Schema) : Declaration → (List String → Schema) → Prop
  | message {target : Declaration} {family : List String → List Message}
      (hSlot : ListSlot Message.Slot schema.messages target family) :
      Slot schema target fun comments => { schema with messages := family comments }
  | enum {target : Declaration} {family : List String → List EnumDecl}
      (hSlot : ListSlot EnumDecl.Slot schema.enums target family) :
      Slot schema target fun comments => { schema with enums := family comments }
  | service {target : Declaration} {family : List String → List Service}
      (hSlot : ListSlot Service.Slot schema.services target family) :
      Slot schema target fun comments => { schema with services := family comments }
  | block {target : Declaration} {family : List String → List ExtendBlock}
      (hSlot : ListSlot ExtendBlock.Slot schema.extendBlocks target family) :
      Slot schema target fun comments => { schema with extendBlocks := family comments }

/-! ## Slots of what is put together -/

namespace ListSlot

variable {α : Type} {Slot : α → Declaration → (List String → α) → Prop} {xs ys : List α} {x : α}
  {target : Declaration} {family : List String → List α}

theorem not_nil : ¬ListSlot Slot [] target family :=
  fun hSlot => nomatch hSlot

/-- A slot of two lists, one after the other, is one of the first or of the second. -/
theorem of_append (hSlot : ListSlot Slot (xs ++ ys) target family) :
    (∃ earlier, ListSlot Slot xs target earlier ∧
        ∀ comments, family comments = earlier comments ++ ys) ∨
      ∃ later, ListSlot Slot ys target later ∧
        ∀ comments, family comments = xs ++ later comments := by
  induction xs generalizing family with
  | nil => exact .inr ⟨family, hSlot, fun _ => rfl⟩
  | cons x xs ih =>
      cases hSlot with
      | @here _ _ _ own hOwn =>
          exact .inl ⟨fun comments => own comments :: xs, .here hOwn, fun _ => rfl⟩
      | later hLater =>
          rcases ih hLater with ⟨earlier, hEarlier, hFamily⟩ | ⟨later, hLater, hFamily⟩
          · refine .inl ⟨fun comments => x :: earlier comments, .later hEarlier, fun comments => ?_⟩
            exact congrArg (x :: ·) (hFamily comments)
          · exact .inr ⟨later, hLater, fun comments => congrArg (x :: ·) (hFamily comments)⟩

theorem of_singleton (hSlot : ListSlot Slot [x] target family) :
    ∃ own, Slot x target own ∧ ∀ comments, family comments = [own comments] := by
  cases hSlot with
  | @here _ _ _ own hOwn => exact ⟨own, hOwn, fun _ => rfl⟩
  | later hLater => exact absurd hLater not_nil

/-- A slot of a list with one more entry is one of the list or of the entry. -/
theorem of_concat (hSlot : ListSlot Slot (xs ++ [x]) target family) :
    (∃ earlier, ListSlot Slot xs target earlier ∧
        ∀ comments, family comments = earlier comments ++ [x]) ∨
      ∃ own, Slot x target own ∧ ∀ comments, family comments = xs ++ [own comments] := by
  rcases hSlot.of_append with hEarlier | ⟨later, hLater, hFamily⟩
  · exact .inl hEarlier
  · obtain ⟨own, hOwn, hSame⟩ := hLater.of_singleton
    exact .inr ⟨own, hOwn, fun comments => by rw [hFamily, hSame]⟩

/-- What no entry loses with other comments, the list does not lose. -/
theorem map_eq {key : α → κ} (hKey : ∀ x target own comments, Slot x target own →
      key (own comments) = key x)
    (hSlot : ListSlot Slot xs target family) (comments : List String) :
    (family comments).map key = xs.map key := by
  induction hSlot with
  | here hOwn => rw [List.map_cons, List.map_cons, hKey _ _ _ comments hOwn]
  | later _ ih => rw [List.map_cons, List.map_cons, ih]

end ListSlot

/-- A slot inside a service with one more method is inside the service or it is the method. -/
theorem Service.MemberSlot.of_concat {service : Service} {method : RpcMethod}
    {target : Declaration} {family : List String → Service}
    (hSlot : MemberSlot { service with methods := service.methods ++ [method] } target family) :
    (∃ earlier, service.MemberSlot target earlier ∧ ∀ comments,
        family comments =
          { earlier comments with methods := (earlier comments).methods ++ [method] }) ∨
      ∃ own, method.Slot target own ∧ ∀ comments,
        family comments = { service with methods := service.methods ++ [own comments] } := by
  obtain ⟨hList⟩ := hSlot
  rcases hList.of_concat with ⟨earlier, hEarlier, hFamily⟩ | ⟨own, hOwn, hFamily⟩
  · exact .inl ⟨_, .method hEarlier, fun comments => by simp only [hFamily]⟩
  · exact .inr ⟨own, hOwn, fun comments => by simp only [hFamily]⟩

namespace Message

variable {name : String} {decl first second : Message} {target : Declaration}
  {family : List String → Message}

/-- Comments of a part of a message do not change its options. -/
theorem MemberSlot.options_eq (hSlot : decl.MemberSlot target family) (comments : List String) :
    (family comments).options = decl.options := by
  cases hSlot <;> rfl

/-- Neither do they change its own. -/
theorem MemberSlot.comments_eq (hSlot : decl.MemberSlot target family) (comments : List String) :
    (family comments).comments = decl.comments := by
  cases hSlot <;> rfl

/-- A slot inside a message that is followed by another is inside one of the two. -/
theorem MemberSlot.of_followedBy (hSlot : (first.followedBy second).MemberSlot target family) :
    (∃ earlier, first.MemberSlot target earlier ∧
        ∀ comments, family comments = (earlier comments).followedBy second) ∨
      ∃ later, second.MemberSlot target later ∧
        ∀ comments, family comments = first.followedBy (later comments) := by
  cases hSlot with
  | message hList =>
      rcases hList.of_append with ⟨_, hPart, hFamily⟩ | ⟨_, hPart, hFamily⟩
      · exact .inl ⟨_, .message hPart, fun comments => by simp only [hFamily]; rfl⟩
      · exact .inr ⟨_, .message hPart, fun comments => by simp only [hFamily]; rfl⟩
  | enum hList =>
      rcases hList.of_append with ⟨_, hPart, hFamily⟩ | ⟨_, hPart, hFamily⟩
      · exact .inl ⟨_, .enum hPart, fun comments => by simp only [hFamily]; rfl⟩
      · exact .inr ⟨_, .enum hPart, fun comments => by simp only [hFamily]; rfl⟩
  | field hList =>
      rcases hList.of_append with ⟨_, hPart, hFamily⟩ | ⟨_, hPart, hFamily⟩
      · exact .inl ⟨_, .field hPart, fun comments => by simp only [hFamily]; rfl⟩
      · exact .inr ⟨_, .field hPart, fun comments => by simp only [hFamily]; rfl⟩
  | block hList =>
      rcases hList.of_append with ⟨_, hPart, hFamily⟩ | ⟨_, hPart, hFamily⟩
      · exact .inl ⟨_, .block hPart, fun comments => by simp only [hFamily]; rfl⟩
      · exact .inr ⟨_, .block hPart, fun comments => by simp only [hFamily]; rfl⟩

/-- What declares nothing has no slots inside. -/
theorem not_memberSlot (hMessages : decl.messages = []) (hEnums : decl.enums = [])
    (hFields : decl.fields = []) (hBlocks : decl.extendBlocks = []) :
    ¬decl.MemberSlot target family := by
  intro hSlot
  cases hSlot with
  | message hList =>
      rw [hMessages] at hList
      exact hList.not_nil
  | enum hList =>
      rw [hEnums] at hList
      exact hList.not_nil
  | field hList =>
      rw [hFields] at hList
      exact hList.not_nil
  | block hList =>
      rw [hBlocks] at hList
      exact hList.not_nil

/-- What declares one message has the slots of that. -/
theorem MemberSlot.of_message
    (hSlot : MemberSlot { Message.new name with messages := [decl] } target family) :
    ∃ own, decl.Slot target own ∧
      ∀ comments, family comments = { Message.new name with messages := [own comments] } := by
  cases hSlot with
  | enum hList => exact absurd hList ListSlot.not_nil
  | field hList => exact absurd hList ListSlot.not_nil
  | block hList => exact absurd hList ListSlot.not_nil
  | message hList =>
      obtain ⟨own, hOwn, hFamily⟩ := hList.of_singleton
      exact ⟨own, hOwn, fun comments => by simp only [hFamily]⟩

theorem MemberSlot.of_enum {declared : EnumDecl}
    (hSlot : MemberSlot { Message.new name with enums := [declared] } target family) :
    ∃ own, declared.Slot target own ∧
      ∀ comments, family comments = { Message.new name with enums := [own comments] } := by
  cases hSlot with
  | message hList => exact absurd hList ListSlot.not_nil
  | field hList => exact absurd hList ListSlot.not_nil
  | block hList => exact absurd hList ListSlot.not_nil
  | enum hList =>
      obtain ⟨own, hOwn, hFamily⟩ := hList.of_singleton
      exact ⟨own, hOwn, fun comments => by simp only [hFamily]⟩

theorem MemberSlot.of_fields {fields : List Field}
    (hSlot : MemberSlot { Message.new name with fields := fields } target family) :
    ∃ own, ListSlot Field.Slot fields target own ∧
      ∀ comments, family comments = { Message.new name with fields := own comments } := by
  cases hSlot with
  | message hList => exact absurd hList ListSlot.not_nil
  | enum hList => exact absurd hList ListSlot.not_nil
  | block hList => exact absurd hList ListSlot.not_nil
  | field hList => exact ⟨_, hList, fun _ => rfl⟩

theorem MemberSlot.of_block {declared : ExtendBlock}
    (hSlot : MemberSlot { Message.new name with extendBlocks := [declared] } target family) :
    ∃ own, declared.Slot target own ∧
      ∀ comments, family comments = { Message.new name with extendBlocks := [own comments] } := by
  cases hSlot with
  | message hList => exact absurd hList ListSlot.not_nil
  | enum hList => exact absurd hList ListSlot.not_nil
  | field hList => exact absurd hList ListSlot.not_nil
  | block hList =>
      obtain ⟨own, hOwn, hFamily⟩ := hList.of_singleton
      exact ⟨own, hOwn, fun comments => by simp only [hFamily]⟩

/-- A message without members has no slots inside. -/
theorem not_memberSlot_new (name : String) : ¬(Message.new name).MemberSlot target family :=
  not_memberSlot rfl rfl rfl rfl

end Message

namespace Schema

variable {schema grown : Schema} {target : Declaration} {family : List String → Schema}

/-- The lists of declarations of one schema in another. -/
def withLists (schema other : Schema) : Schema :=
  { schema with
    messages := other.messages
    enums := other.enums
    services := other.services
    extendBlocks := other.extendBlocks }

/-- Two schemas with the same lists have the same slots. -/
theorem Slot.carried (hSlot : grown.Slot target family) (schema : Schema)
    (hMessages : grown.messages = schema.messages)
    (hEnums : grown.enums = schema.enums) (hServices : grown.services = schema.services)
    (hBlocks : grown.extendBlocks = schema.extendBlocks) :
    (schema.Slot target fun comments => schema.withLists (family comments)) ∧
      ∀ comments, family comments = grown.withLists (family comments) := by
  cases hSlot with
  | message hList =>
      refine ⟨?_, fun _ => rfl⟩
      rw [hMessages] at hList
      simp only [withLists, hEnums, hServices, hBlocks]
      exact .message hList
  | enum hList =>
      refine ⟨?_, fun _ => rfl⟩
      rw [hEnums] at hList
      simp only [withLists, hMessages, hServices, hBlocks]
      exact .enum hList
  | service hList =>
      refine ⟨?_, fun _ => rfl⟩
      rw [hServices] at hList
      simp only [withLists, hMessages, hEnums, hBlocks]
      exact .service hList
  | block hList =>
      refine ⟨?_, fun _ => rfl⟩
      rw [hBlocks] at hList
      simp only [withLists, hMessages, hEnums, hServices]
      exact .block hList

/-- A slot of a schema with one more message is one of the schema or of the message. -/
theorem Slot.of_concat_message {decl : Message}
    (hSlot : Slot { schema with messages := schema.messages ++ [decl] } target family) :
    (∃ earlier, schema.Slot target earlier ∧ ∀ comments,
        family comments =
          { earlier comments with messages := (earlier comments).messages ++ [decl] }) ∨
      ∃ own, decl.Slot target own ∧ ∀ comments,
        family comments = { schema with messages := schema.messages ++ [own comments] } := by
  cases hSlot with
  | enum hList => exact .inl ⟨_, .enum hList, fun _ => rfl⟩
  | service hList => exact .inl ⟨_, .service hList, fun _ => rfl⟩
  | block hList => exact .inl ⟨_, .block hList, fun _ => rfl⟩
  | message hList =>
      rcases hList.of_concat with ⟨earlier, hEarlier, hFamily⟩ | ⟨own, hOwn, hFamily⟩
      · exact .inl ⟨_, .message hEarlier, fun comments => by simp only [hFamily]⟩
      · exact .inr ⟨own, hOwn, fun comments => by simp only [hFamily]⟩

theorem Slot.of_concat_enum {decl : EnumDecl}
    (hSlot : Slot { schema with enums := schema.enums ++ [decl] } target family) :
    (∃ earlier, schema.Slot target earlier ∧ ∀ comments,
        family comments =
          { earlier comments with enums := (earlier comments).enums ++ [decl] }) ∨
      ∃ own, decl.Slot target own ∧ ∀ comments,
        family comments = { schema with enums := schema.enums ++ [own comments] } := by
  cases hSlot with
  | message hList => exact .inl ⟨_, .message hList, fun _ => rfl⟩
  | service hList => exact .inl ⟨_, .service hList, fun _ => rfl⟩
  | block hList => exact .inl ⟨_, .block hList, fun _ => rfl⟩
  | enum hList =>
      rcases hList.of_concat with ⟨earlier, hEarlier, hFamily⟩ | ⟨own, hOwn, hFamily⟩
      · exact .inl ⟨_, .enum hEarlier, fun comments => by simp only [hFamily]⟩
      · exact .inr ⟨own, hOwn, fun comments => by simp only [hFamily]⟩

theorem Slot.of_concat_service {decl : Service}
    (hSlot : Slot { schema with services := schema.services ++ [decl] } target family) :
    (∃ earlier, schema.Slot target earlier ∧ ∀ comments,
        family comments =
          { earlier comments with services := (earlier comments).services ++ [decl] }) ∨
      ∃ own, decl.Slot target own ∧ ∀ comments,
        family comments = { schema with services := schema.services ++ [own comments] } := by
  cases hSlot with
  | message hList => exact .inl ⟨_, .message hList, fun _ => rfl⟩
  | enum hList => exact .inl ⟨_, .enum hList, fun _ => rfl⟩
  | block hList => exact .inl ⟨_, .block hList, fun _ => rfl⟩
  | service hList =>
      rcases hList.of_concat with ⟨earlier, hEarlier, hFamily⟩ | ⟨own, hOwn, hFamily⟩
      · exact .inl ⟨_, .service hEarlier, fun comments => by simp only [hFamily]⟩
      · exact .inr ⟨own, hOwn, fun comments => by simp only [hFamily]⟩

theorem Slot.of_concat_block {block : ExtendBlock}
    (hSlot : Slot { schema with extendBlocks := schema.extendBlocks ++ [block] } target family) :
    (∃ earlier, schema.Slot target earlier ∧ ∀ comments,
        family comments =
          { earlier comments with extendBlocks := (earlier comments).extendBlocks ++ [block] }) ∨
      ∃ own, block.Slot target own ∧ ∀ comments,
        family comments =
          { schema with extendBlocks := schema.extendBlocks ++ [own comments] } := by
  cases hSlot with
  | message hList => exact .inl ⟨_, .message hList, fun _ => rfl⟩
  | enum hList => exact .inl ⟨_, .enum hList, fun _ => rfl⟩
  | service hList => exact .inl ⟨_, .service hList, fun _ => rfl⟩
  | block hList =>
      rcases hList.of_concat with ⟨earlier, hEarlier, hFamily⟩ | ⟨own, hOwn, hFamily⟩
      · exact .inl ⟨_, .block hEarlier, fun comments => by simp only [hFamily]⟩
      · exact .inr ⟨own, hOwn, fun comments => by simp only [hFamily]⟩

/-- A schema without declarations has no slots. -/
theorem not_slot_new (version : LanguageVersion) : ¬(Schema.new version).Slot target family := by
  intro hSlot
  cases hSlot with
  | message hList => exact hList.not_nil
  | enum hList => exact hList.not_nil
  | service hList => exact hList.not_nil
  | block hList => exact hList.not_nil

end Schema

end ProtoIdl
