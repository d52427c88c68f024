import ProtoIdl.Proofs.RoundTrip.File
import ProtoIdl.Proofs.Token.Joining
import ProtoIdl.Proofs.WellFormed.Grammar

/-!
# Parsed schemas are well formed

Linking adds to messages the fields of `extend` blocks, which are well formed like all
fields, and changes nothing else.  So what a parse answers is well formed, linked or not.
-/

namespace ProtoIdl

/-! ## Changing one message -/

/-- A list stays as good as it is if one of its members is changed for the better. -/
theorem forall_mem_modify {holds : α → Prop} {change : α → α} {list : List α}
    (hList : ∀ a ∈ list, holds a) (hChange : ∀ a, holds a → holds (change a)) (index : Nat) :
    ∀ a ∈ list.modify index change, holds a := by
  intro a hMem
  obtain ⟨place, hPlace⟩ := List.mem_iff_getElem?.mp hMem
  rw [List.getElem?_modify] at hPlace
  obtain ⟨old, hOld, rfl⟩ := Option.map_eq_some_iff.mp hPlace
  have hHolds := hList old (List.mem_of_getElem? hOld)
  split
  · exact hChange old hHolds
  · exact hHolds

namespace Message

variable {change : Message → Message}

theorem WellFormed.addField {message : Message} (hMessage : message.WellFormed) {field : Field}
    (hField : field.WellFormed) : (message.addField field).WellFormed := by
  obtain ⟨hMembers, hMessages, hBlocks⟩ := hMessage.parts
  exact .mk ⟨forall_mem_concat hMembers.fields hField, hMembers.enums, hMembers.options⟩
    hMessages hBlocks

theorem WellFormed.modifyAt {message : Message} (hMessage : message.WellFormed)
    (hChange : ∀ inner : Message, inner.WellFormed → (change inner).WellFormed)
    (path : MessagePath) : (message.modifyAt change path).WellFormed := by
  -- along the path one message of each level is changed, and the others stay
  induction path generalizing message with
  | nil => exact hChange message hMessage
  | cons index path ih =>
      obtain ⟨hMembers, hMessages, hBlocks⟩ := hMessage.parts
      exact .mk ⟨hMembers.fields, hMembers.enums, hMembers.options⟩
        (forall_mem_modify hMessages (fun _ => ih) index) hBlocks

mutual

/-- The blocks of a well-formed message, at every depth, are well formed. -/
theorem wellFormed_of_mem_scopedBlocks (scope : List String) (message : Message)
    (hMessage : message.WellFormed) :
    ∀ entry ∈ message.scopedBlocks scope, entry.2.WellFormed :=
  match message with
  | ⟨name, messages, enums, fields, blocks, extensions, reserved, options, comments⟩ => by
      obtain ⟨-, hMessages, hBlocks⟩ := hMessage.parts
      rw [scopedBlocks]
      refine List.forall_mem_append.mpr ⟨?_, ?_⟩
      · intro entry hMem
        obtain ⟨block, hBlock, rfl⟩ := List.mem_map.mp hMem
        exact hBlocks block hBlock
      · exact wellFormed_of_mem_scopedBlocksIn (scope ++ [name]) messages hMessages
termination_by structural message

/-- And so are those of a list of well-formed messages. -/
theorem wellFormed_of_mem_scopedBlocksIn (scope : List String) (level : List Message)
    (hLevel : ∀ message ∈ level, message.WellFormed) :
    ∀ entry ∈ scopedBlocksIn scope level, entry.2.WellFormed :=
  match level with
  | [] => nofun
  | message :: rest => by
      rw [scopedBlocksIn]
      obtain ⟨hFirst, hRest⟩ := List.forall_mem_cons.mp hLevel
      exact List.forall_mem_append.mpr
        ⟨wellFormed_of_mem_scopedBlocks scope message hFirst,
          wellFormed_of_mem_scopedBlocksIn scope rest hRest⟩
termination_by structural level

end

end Message

/-! ## Linking -/

namespace Schema

variable {schema : Schema}

theorem WellFormed.modifyAt (hSchema : schema.WellFormed) {change : Message → Message}
    (hChange : ∀ message : Message, message.WellFormed → (change message).WellFormed)
    (path : MessagePath) : (schema.modifyAt change path).WellFormed := by
  cases path with
  | nil => exact hSchema
  | cons index path =>
      exact ⟨forall_mem_modify hSchema.messages (fun _ hMessage => hMessage.modifyAt hChange path)
        index, hSchema.enums, hSchema.services, hSchema.extendBlocks, hSchema.options⟩

theorem WellFormed.addFields (hSchema : schema.WellFormed) (path : MessagePath)
    {fields : List Field} (hFields : ∀ field ∈ fields, field.WellFormed) :
    (schema.addFields path fields).1.WellFormed := by
  induction fields generalizing schema with
  | nil => exact hSchema
  | cons field rest ih =>
      obtain ⟨hField, hRest⟩ := List.forall_mem_cons.mp hFields
      rw [Schema.addFields]
      split
      · exact hSchema
      · exact ih (hSchema.modifyAt (fun message hMessage => hMessage.addField hField) path) hRest

theorem WellFormed.linkBlock (hSchema : schema.WellFormed) {entry : List String × ExtendBlock}
    (hEntry : entry.2.WellFormed) : (schema.linkBlock entry).1.WellFormed := by
  rw [Schema.linkBlock]
  split
  · exact hSchema
  · exact hSchema.addFields _ hEntry.body.parts.1.fields

theorem WellFormed.linkBlocks (hSchema : schema.WellFormed)
    {entries : List (List String × ExtendBlock)}
    (hEntries : ∀ entry ∈ entries, entry.2.WellFormed) :
    (schema.linkBlocks entries).1.WellFormed := by
  induction entries generalizing schema with
  | nil => exact hSchema
  | cons entry rest ih =>
      obtain ⟨hEntry, hRest⟩ := List.forall_mem_cons.mp hEntries
      have hStep := hSchema.linkBlock hEntry
      rw [Schema.linkBlocks]
      split
      · next hLink => rwa [hLink] at hStep
      · next hLink =>
          rw [hLink] at hStep
          exact ih hStep hRest

/-- Linking keeps a schema well formed, whether it comes to an end or not. -/
theorem WellFormed.link (hSchema : schema.WellFormed) : schema.link.1.WellFormed := by
  refine hSchema.linkBlocks (List.forall_mem_append.mpr ⟨?_, ?_⟩)
  · intro entry hMem
    obtain ⟨block, hBlock, rfl⟩ := List.mem_map.mp hMem
    exact hSchema.extendBlocks block hBlock
  · exact Message.wellFormed_of_mem_scopedBlocksIn [] schema.messages hSchema.messages

theorem WellFormed.linked (hSchema : schema.WellFormed) {linked : Schema}
    (hLinked : schema.linked = .ok linked) : linked.WellFormed := by
  have hLink := hSchema.link
  unfold Schema.linked at hLinked
  split at hLinked
  · next hSplit =>
      cases hLinked
      rwa [hSplit] at hLink
  · cases hLinked

end Schema

/-! ## Parsing -/

theorem wellFormed_of_readFile {tokens : List Token} {settings : Settings} {schema : Schema}
    (hRead : readFile tokens settings = .ok schema) : schema.WellFormed := by
  unfold readFile at hRead
  split at hRead
  · next hRun =>
      cases hRead
      exact Grammar.yields_file settings.version _ _ hRun
  · cases hRead

/-- Every schema that a parse answers is well formed at every depth, whatever the tokens and
the settings are. -/
theorem wellFormed_of_parseTokens {tokens : List Token} {settings : Settings} {schema : Schema}
    (hParse : parseTokens tokens settings = .ok schema) : schema.WellFormed := by
  unfold parseTokens at hParse
  cases hRead : readFile (Token.coalesce tokens) settings with
  | error fault =>
      rw [hRead] at hParse
      cases hParse
  | ok unlinked =>
      rw [hRead] at hParse
      have hUnlinked := wellFormed_of_readFile hRead
      by_cases hLink : settings.link
      · exact hUnlinked.linked (by simpa [bind, Except.bind, hLink] using hParse)
      · have hSame : unlinked = schema := by
          simpa [bind, Except.bind, hLink, pure, Except.pure] using hParse
        exact hSame ▸ hUnlinked

/-- The library, with a goal for the code that is made of it. -/
def tunedLibrary : Schema :=
  { Grammar.librarySchema with
    options := ⟨("optimize_for", .text "SPEED") :: Grammar.librarySchema.options.entries⟩ }

/-- A file with a group, a map field, a nested option map with a list in it, a goal, and a block
whose field is linked. -/
theorem wellFormed_of_parseTokens_library :
    parseTokens tunedLibrary.tokens {} = .ok tunedLibrary.link.1 ∧
      (tunedLibrary.link.1.messages.map fun message => message.fields.map Field.name) =
        [["title", "isbn", "shelf", "notes", "stars"]] ∧
      tunedLibrary.link.1.WellFormed := by
  have hPrintable : tunedLibrary.Printable := by decide
  have hNesting : tunedLibrary.nesting ≤ 64 := by decide
  have hRead : readFile tunedLibrary.tokens {} = .ok tunedLibrary :=
    Grammar.readFile_of_reads (Grammar.reads_schema hPrintable hNesting .proto3)
  have hTokens : Token.coalesce tunedLibrary.tokens = tunedLibrary.tokens :=
    Token.coalesce_eq_self (by decide +kernel)
  have hLinked : tunedLibrary.linked = .ok tunedLibrary.link.1 := rfl
  have hParse : parseTokens tunedLibrary.tokens {} = .ok tunedLibrary.link.1 := by
    rw [parseTokens, hTokens, hRead]
    exact hLinked
  exact ⟨hParse, rfl, wellFormed_of_parseTokens hParse⟩

end ProtoIdl
