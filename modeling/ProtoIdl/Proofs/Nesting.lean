import ProtoIdl.Proofs.OptionMap
import ProtoIdl.Schema.Basic

/-!
# Nesting of a schema

The number of levels that the blocks of a tree reach.  The body of a message or of an
`extend` block lies one level below what it is written in, and so does each braced
option map.  The other constructs count no level of their own.
-/

namespace ProtoIdl

/-- The greatest measure in a list, and zero in the empty list. -/
def deepest (measure : α → Nat) : List α → Nat
  | [] => 0
  | a :: rest => max (measure a) (deepest measure rest)

theorem le_deepest (measure : α → Nat) {a : α} {list : List α} (hMem : a ∈ list) :
    measure a ≤ deepest measure list := by
  induction list with
  | nil => cases hMem
  | cons b rest ih =>
      rw [deepest]
      rcases List.mem_cons.mp hMem with rfl | hRest
      · exact Nat.le_max_left _ _
      · exact Nat.le_trans (ih hRest) (Nat.le_max_right _ _)

theorem deepest_append (measure : α → Nat) (first second : List α) :
    deepest measure (first ++ second) = max (deepest measure first) (deepest measure second) := by
  induction first with
  | nil => simp [deepest]
  | cons a rest ih =>
      rw [List.cons_append, deepest, deepest, ih]
      omega

theorem deepest_concat (measure : α → Nat) (list : List α) (a : α) :
    deepest measure (list ++ [a]) = max (deepest measure list) (measure a) := by
  simp [deepest_append, deepest]

/-! ## Options -/

mutual

/-- The levels of an option value. -/
def OptionValue.nesting : OptionValue → Nat
  | .bool _ => 0
  | .text _ => 0
  | .map value => value.nesting + 1
  | .list blocks => OptionMap.blocksNesting blocks

/-- The levels inside an option map. -/
def OptionMap.nesting : OptionMap → Nat
  | ⟨entries⟩ => OptionMap.entriesNesting entries

/-- The greatest number of levels among bindings. -/
def OptionMap.entriesNesting : List (String × OptionValue) → Nat
  | [] => 0
  | (_, value) :: rest => max value.nesting (OptionMap.entriesNesting rest)

/-- The greatest number of levels among blocks, their own braces included. -/
def OptionMap.blocksNesting : List OptionMap → Nat
  | [] => 0
  | block :: rest => max (block.nesting + 1) (OptionMap.blocksNesting rest)

end

theorem OptionMap.nesting_eq (options : OptionMap) :
    options.nesting = deepest (fun entry => entry.2.nesting) options.entries := by
  cases options with
  | mk entries =>
      rw [OptionMap.nesting]
      induction entries with
      | nil => rfl
      | cons entry rest ih => rw [entriesNesting, deepest, ih]

/-- The value of a binding reaches no deeper than its map. -/
theorem OptionMap.nesting_le_of_mem {options : OptionMap} {entry : String × OptionValue}
    (hMem : entry ∈ options.entries) : entry.2.nesting ≤ options.nesting := by
  rw [options.nesting_eq]
  exact le_deepest (fun entry => entry.2.nesting) hMem

namespace OptionMap

variable {options grown : OptionMap} {key : String}

theorem blocksNesting_concat (blocks : List OptionMap) (block : OptionMap) :
    blocksNesting (blocks ++ [block]) = max (blocksNesting blocks) (block.nesting + 1) := by
  induction blocks with
  | nil => simp [blocksNesting]
  | cons first rest ih =>
      rw [List.cons_append, blocksNesting, blocksNesting, ih]
      omega

@[simp] theorem nesting_empty : (∅ : OptionMap).nesting = 0 := rfl

theorem nesting_append (options : OptionMap) (key : String) (value : OptionValue) :
    (options.append key value).nesting = max options.nesting value.nesting := by
  rw [nesting_eq, nesting_eq, entries_append, deepest_concat]

/-- A new binding adds the levels of its value. -/
theorem nesting_of_bind {value : OptionValue} (hBind : options.bind key value = .ok grown) :
    grown.nesting = max options.nesting value.nesting := by
  rw [eq_append_of_bind hBind, nesting_append]

/-- A block adds its levels, whether it is the first of its key or not. -/
theorem nesting_of_pushBlock {block : OptionMap} (hKeys : options.keys.Nodup)
    (hPush : options.pushBlock key block = .ok grown) :
    grown.nesting = max options.nesting (block.nesting + 1) := by
  rcases eq_of_pushBlock hPush with ⟨_, rfl⟩ | ⟨blocks, hBlocks, rfl⟩
  · rw [nesting_append, OptionValue.nesting, blocksNesting, blocksNesting, Nat.max_zero]
  · obtain ⟨before, after, hEntries, hReplaced⟩ :=
      exists_entries_replace hKeys hBlocks (.list (blocks ++ [block]))
    rw [nesting_eq, nesting_eq, hReplaced, hEntries, deepest_append, deepest_append, deepest,
      deepest, OptionValue.nesting, OptionValue.nesting, blocksNesting_concat]
    omega

end OptionMap

/-! ## Declarations -/

/-- The levels of an enum are those of its options. -/
def EnumDecl.nesting (decl : EnumDecl) : Nat :=
  max decl.options.nesting (deepest (fun value => value.options.nesting) decl.values)

theorem EnumDecl.nesting_withComments (decl : EnumDecl) (comments : List String) :
    { decl with comments := comments }.nesting = decl.nesting := rfl

/-- The levels of a service are those of its options. -/
def Service.nesting (service : Service) : Nat :=
  max service.options.nesting (deepest (fun method => method.options.nesting) service.methods)

theorem Service.nesting_withComments (service : Service) (comments : List String) :
    { service with comments := comments }.nesting = service.nesting := rfl

/-- The levels of the members of a message other than its blocks. -/
def Message.memberNesting (message : Message) : Nat :=
  max message.options.nesting <|
    max (deepest EnumDecl.nesting message.enums)
      (deepest (fun field => field.options.nesting) message.fields)

mutual

/-- The levels of a message, its own body included. -/
def Message.nesting : Message → Nat
  | ⟨name, messages, enums, fields, extendBlocks, extensions, reserved, options, comments⟩ =>
      max (Message.memberNesting
          ⟨name, messages, enums, fields, extendBlocks, extensions, reserved, options, comments⟩)
        (max (Message.levelNesting messages) (ExtendBlock.levelNesting extendBlocks)) + 1

/-- The levels of an `extend` block are those of what it holds. -/
def ExtendBlock.nesting : ExtendBlock → Nat
  | ⟨_, body⟩ => body.nesting

/-- The greatest number of levels among messages. -/
def Message.levelNesting : List Message → Nat
  | [] => 0
  | message :: rest => max message.nesting (Message.levelNesting rest)

/-- The greatest number of levels among `extend` blocks. -/
def ExtendBlock.levelNesting : List ExtendBlock → Nat
  | [] => 0
  | block :: rest => max block.nesting (ExtendBlock.levelNesting rest)

end

theorem Message.levelNesting_eq (messages : List Message) :
    Message.levelNesting messages = deepest Message.nesting messages := by
  induction messages with
  | nil => rfl
  | cons message rest ih => rw [levelNesting, deepest, ih]

theorem ExtendBlock.levelNesting_eq (blocks : List ExtendBlock) :
    ExtendBlock.levelNesting blocks = deepest ExtendBlock.nesting blocks := by
  induction blocks with
  | nil => rfl
  | cons block rest ih => rw [levelNesting, deepest, ih]

/-- The levels of a message are one more than those of what it holds. -/
theorem Message.nesting_eq (message : Message) :
    message.nesting =
      max message.memberNesting
        (max (deepest Message.nesting message.messages)
          (deepest ExtendBlock.nesting message.extendBlocks)) + 1 := by
  cases message
  rw [nesting, levelNesting_eq, ExtendBlock.levelNesting_eq]

/-- The levels inside the body of a message. -/
def Message.innerNesting (message : Message) : Nat :=
  max message.memberNesting
    (max (deepest Message.nesting message.messages)
      (deepest ExtendBlock.nesting message.extendBlocks))

theorem Message.nesting_eq_innerNesting (message : Message) :
    message.nesting = message.innerNesting + 1 :=
  message.nesting_eq

theorem Message.optionNesting_le (message : Message) :
    message.options.nesting ≤ message.innerNesting :=
  Nat.le_trans (Nat.le_max_left _ _) (Nat.le_max_left _ _)

theorem Message.fieldNesting_le (message : Message) :
    deepest (fun field => field.options.nesting) message.fields ≤ message.innerNesting :=
  Nat.le_trans (Nat.le_trans (Nat.le_max_right _ _) (Nat.le_max_right _ _)) (Nat.le_max_left _ _)

/-- The name and the comments of a message have no levels. -/
theorem Message.nesting_withComments (message : Message) (comments : List String) :
    { message with comments := comments }.nesting = message.nesting := by
  rw [nesting_eq, nesting_eq]
  rfl

/-- What holds of a message whenever it holds of its parts holds of every message. -/
theorem Message.induction_on_parts {motive : Message → Prop}
    (hStep : ∀ message, (∀ inner ∈ message.messages, motive inner) →
      (∀ block ∈ message.extendBlocks, motive block.body) → motive message)
    (message : Message) : motive message := by
  suffices hBounded : ∀ bound message, message.nesting ≤ bound → motive message from
    hBounded message.nesting message (Nat.le_refl _)
  intro bound
  induction bound with
  | zero =>
      intro message hBound
      rw [message.nesting_eq] at hBound
      omega
  | succ bound ih =>
      intro message hBound
      rw [message.nesting_eq] at hBound
      refine hStep message ?_ ?_
      · intro inner hMem
        have hLe := le_deepest Message.nesting hMem
        exact ih inner (by omega)
      · intro block hMem
        have hLe := le_deepest ExtendBlock.nesting hMem
        have hBody : block.nesting = block.body.nesting := by
          cases block
          rfl
        exact ih block.body (by omega)

/-- The levels of a whole file. -/
def Schema.nesting (schema : Schema) : Nat :=
  max schema.options.nesting <|
    max (deepest EnumDecl.nesting schema.enums) <|
      max (deepest Service.nesting schema.services) <|
        max (deepest Message.nesting schema.messages)
          (deepest ExtendBlock.nesting schema.extendBlocks)

end ProtoIdl
