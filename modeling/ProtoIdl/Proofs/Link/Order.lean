import ProtoIdl.Proofs.Link.Linking
import ProtoIdl.Proofs.Link.Resolution

/-!
# The order of `extend` blocks

Schemas that differ only in the order of their `extend` blocks, at the top level and in every
message, are linked alike: both or neither can be linked, and the messages at each path get
the same fields, perhaps in another order.  The linker looks at one field after another, each
with those before it.  What decides is free of order: the target of each field takes it as it
stands before linking, and no two fields for one target have the same name or number.
-/

namespace ProtoIdl

/-! ## Schemas with blocks in another order -/

mutual

/-- The second message is the first with the blocks of the messages in it, its own included,
in another order. -/
inductive Message.Reordered : Message → Message → Prop where
  | intro {name : String} {messages others : List Message} {enums : List EnumDecl}
      {fields : List Field} {blocks shuffled moved : List ExtendBlock}
      {extensions : List ExtensionRange} {reserved : List Reserved} {options : OptionMap}
      {comments : List String} (hMessages : List.Forall₂ Message.Reordered messages others)
      (hShuffled : blocks.Perm shuffled)
      (hMoved : List.Forall₂ ExtendBlock.Reordered shuffled moved) :
      Message.Reordered
        ⟨name, messages, enums, fields, blocks, extensions, reserved, options, comments⟩
        ⟨name, others, enums, fields, moved, extensions, reserved, options, comments⟩

/-- The second block is the first with the blocks in its body in another order. -/
inductive ExtendBlock.Reordered : ExtendBlock → ExtendBlock → Prop where
  | intro {target : String} {body other : Message} (hBody : Message.Reordered body other) :
      ExtendBlock.Reordered ⟨target, body⟩ ⟨target, other⟩

end

/-- The second schema is the first with its blocks, and those of the messages in it, in
another order. -/
structure Schema.Reordered (first second : Schema) : Prop where
  version : second.version = first.version
  package : second.package = first.package
  imports : second.imports = first.imports
  messages : List.Forall₂ Message.Reordered first.messages second.messages
  enums : second.enums = first.enums
  services : second.services = first.services
  extendBlocks : ∃ shuffled, first.extendBlocks.Perm shuffled ∧
    List.Forall₂ ExtendBlock.Reordered shuffled second.extendBlocks
  options : second.options = first.options
  comments : second.comments = first.comments

namespace Message.Reordered

variable {one other : Message}

/-- Leaving every block in its place is an order, too. -/
theorem refl (message : Message) : message.Reordered message := by
  induction message using induction_on_parts with
  | hStep message ihMessages ihBlocks =>
      have hBlocks : ∀ block ∈ message.extendBlocks, block.Reordered block := by
        rintro ⟨target, body⟩ hMem
        exact .intro (ihBlocks _ hMem)
      cases message
      exact .intro (List.forall₂_same.mpr ihMessages) (.refl _) (List.forall₂_same.mpr hBlocks)

theorem keepsNames : KeepsNames Reordered where
  name hReordered := by
    cases hReordered
    rfl
  messages hReordered := by
    cases hReordered
    assumption

theorem fields_eq (hReordered : one.Reordered other) : other.fields = one.fields := by
  cases hReordered
  rfl

theorem extensions_eq (hReordered : one.Reordered other) :
    other.extensions = one.extensions := by
  cases hReordered
  rfl

end Message.Reordered

/-! ## The blocks of both schemas -/

section Blocks

variable {answers : List String × ExtendBlock → List α}

/-- What is read off the blocks of one list is read off those of the other. -/
theorem ExtendBlock.perm_flatMap
    (hAnswers : ∀ scope block moved, ExtendBlock.Reordered block moved →
      answers (scope, moved) = answers (scope, block))
    {blocks shuffled moved : List ExtendBlock} (hShuffled : blocks.Perm shuffled)
    (hMoved : List.Forall₂ ExtendBlock.Reordered shuffled moved) (scope : List String) :
    ((blocks.map fun block => (scope, block)).flatMap answers).Perm
      ((moved.map fun block => (scope, block)).flatMap answers) := by
  have hSame : (moved.map fun block => (scope, block)).flatMap answers =
      (shuffled.map fun block => (scope, block)).flatMap answers := by
    clear hShuffled
    induction hMoved with
    | nil => rfl
    | cons hHead hTail ih =>
        rw [List.map_cons, List.map_cons, List.flatMap_cons, List.flatMap_cons, ih,
          hAnswers scope _ _ hHead]
  rw [hSame]
  exact (hShuffled.map _).flatMap_right answers

/-- So it is in levels of messages, if it is in the messages. -/
theorem Message.perm_scopedBlocksIn {scope : List String} {first second : List Message}
    (hLevel : List.Forall₂ Reordered first second)
    (hInner : ∀ one ∈ first, ∀ scope other, one.Reordered other →
      ((one.scopedBlocks scope).flatMap answers).Perm
        ((other.scopedBlocks scope).flatMap answers)) :
    ((scopedBlocksIn scope first).flatMap answers).Perm
      ((scopedBlocksIn scope second).flatMap answers) := by
  induction hLevel with
  | nil => exact .refl _
  | @cons one other rest others hHead hTail ih =>
      have hRest := ih fun later hMem => hInner later (List.mem_cons_of_mem one hMem)
      have hOne := hInner one List.mem_cons_self scope other hHead
      rw [scopedBlocksIn, scopedBlocksIn, List.flatMap_append, List.flatMap_append]
      exact hOne.append hRest

theorem Message.perm_scopedBlocks
    (hAnswers : ∀ scope block moved, ExtendBlock.Reordered block moved →
      answers (scope, moved) = answers (scope, block)) (one : Message) :
    ∀ scope other, one.Reordered other →
      ((one.scopedBlocks scope).flatMap answers).Perm
        ((other.scopedBlocks scope).flatMap answers) := by
  induction one using induction_on_parts with
  | hStep one ihMessages ihBlocks =>
      intro scope other hReordered
      cases hReordered with
      | intro hMessages hShuffled hMoved =>
          rw [scopedBlocks, scopedBlocks, List.flatMap_append, List.flatMap_append]
          exact (ExtendBlock.perm_flatMap hAnswers hShuffled hMoved _).append
            (perm_scopedBlocksIn hMessages ihMessages)

end Blocks

namespace Schema

/-! ## A condition free of order -/

/-- Two additions do not get in each other's way. -/
def Compatible (earlier later : MessagePath × Field) : Prop :=
  earlier.1 = later.1 → earlier.2.name ≠ later.2.name ∧ earlier.2.tag ≠ later.2.tag

theorem compatible_comm {earlier later : MessagePath × Field}
    (hCompatible : Compatible earlier later) : Compatible later earlier := by
  intro hSame
  obtain ⟨hName, hTag⟩ := hCompatible hSame.symm
  exact ⟨hName.symm, hTag.symm⟩

/-- One more addition made before matters to those for the same target alone. -/
theorem admits_concat {schema : Schema} {done : List (MessagePath × Field)}
    {earlier later : MessagePath × Field} :
    schema.Admits (done ++ [earlier]) later ↔
      schema.Admits done later ∧ Compatible earlier later := by
  rcases earlier with ⟨path, field⟩
  simp only [Admits, linkedFields_concat, addExtra]
  by_cases hSame : later.1 = path
  · subst hSame
    simp only [if_pos, Message.IsFree, ← List.append_assoc, List.forall_mem_append,
      List.forall_mem_singleton, Compatible, true_implies]
    constructor
    · rintro ⟨target, hTarget, hOpens, hFree, hField⟩
      exact ⟨⟨target, hTarget, hOpens, hFree⟩, hField⟩
    · rintro ⟨⟨target, hTarget, hOpens, hFree⟩, hField⟩
      exact ⟨target, hTarget, hOpens, hFree, hField⟩
  · have hOther : Compatible (path, field) later := fun hPath => absurd hPath.symm hSame
    simp only [if_neg hSame, hOther, and_true]

theorem admitsAll_cons_iff {schema : Schema} {done todo : List (MessagePath × Field)}
    {addition : MessagePath × Field} :
    schema.AdmitsAll done (addition :: todo) ↔
      schema.Admits done addition ∧ schema.AdmitsAll (done ++ [addition]) todo := by
  constructor
  · intro hAll
    refine ⟨by simpa using hAll [] addition todo rfl, ?_⟩
    intro earlier other later hSplit
    simpa using hAll (addition :: earlier) other later (by rw [hSplit]; rfl)
  · rintro ⟨hAdmits, hTodo⟩
    exact admitsAll_cons hAdmits hTodo

/-- Additions can be made in turn exactly when each could be made first and no two of them
get in each other's way. -/
theorem admitsAll_iff {schema : Schema} {done todo : List (MessagePath × Field)} :
    schema.AdmitsAll done todo ↔
      (∀ addition ∈ todo, schema.Admits done addition) ∧ todo.Pairwise Compatible := by
  induction todo generalizing done with
  | nil => simp [admitsAll_nil]
  | cons addition todo ih =>
      simp only [admitsAll_cons_iff, ih, admits_concat, List.forall_mem_cons,
        List.pairwise_cons, forall_and]
      constructor
      · rintro ⟨hAdmits, ⟨hTodo, hFirst⟩, hPairs⟩
        exact ⟨⟨hAdmits, hTodo⟩, hFirst, hPairs⟩
      · rintro ⟨⟨hAdmits, hTodo⟩, hFirst, hPairs⟩
        exact ⟨hAdmits, ⟨hTodo, hFirst⟩, hPairs⟩

/-! ## Linking both -/

/-- A block makes the same additions with the blocks in its body in another order. -/
theorem blockAdditions_eq (schema : Schema) (scope : List String) {block moved : ExtendBlock}
    (hMoved : block.Reordered moved) :
    schema.blockAdditions (scope, moved) = schema.blockAdditions (scope, block) := by
  cases hMoved with
  | intro hBody => simp only [blockAdditions, hBody.fields_eq]

/-- Linking succeeds when every addition of the plan can be made in its turn. -/
theorem link_eq_none_iff (schema : Schema) :
    schema.link.2 = none ↔ schema.AdmitsAll [] schema.linkPlan := by
  have hLinks := schema.links_link
  rcases hLink : schema.link with ⟨linked, fault?⟩
  rw [hLink] at hLinks
  cases fault? with
  | none => exact iff_of_true rfl hLinks.of_finish.1
  | some fault =>
      obtain ⟨earlier, addition, later, hPlan, -, hRejects, -⟩ := hLinks.of_fault
      refine iff_of_false nofun fun hAll => ?_
      exact not_admits_of_rejects hRejects (hAll earlier addition later hPlan)

/-- Once linked, the message at a path has the fields of the plan for it after its own. -/
theorem fields_at?_link {schema : Schema} (hLink : schema.link.2 = none) (path : MessagePath) :
    (schema.link.1.at? path).map Message.fields =
      (schema.at? path).map fun original =>
        original.fields ++ linkedFields schema.linkPlan path := by
  have hLinks := schema.links_link
  rw [← Prod.eta schema.link, hLink] at hLinks
  rw [hLinks.of_finish.2, at?_extendFields, Option.map_map]
  simp only [Function.comp_def, Message.fields_extendFields, List.append_nil, List.nil_append]

namespace Reordered

variable {first second : Schema}

theorem locate?_eq (hReordered : first.Reordered second) (scope : List String) (name : String) :
    second.locate? scope name = first.locate? scope name :=
  Schema.locate?_eq Message.Reordered.keepsNames hReordered.package hReordered.messages scope name

theorem rel_at? (hReordered : first.Reordered second) (path : MessagePath) :
    Option.Rel Message.Reordered (first.at? path) (second.at? path) :=
  Schema.rel_at? Message.Reordered.keepsNames hReordered.messages path

/-- The plans of both schemas make the same additions. -/
theorem perm_linkPlan (hReordered : first.Reordered second) :
    first.linkPlan.Perm second.linkPlan := by
  have hAdditions : first.blockAdditions = second.blockAdditions := by
    funext entry
    rw [blockAdditions, blockAdditions, hReordered.locate?_eq]
  have hAnswers : ∀ scope block moved, ExtendBlock.Reordered block moved →
      second.blockAdditions (scope, moved) = second.blockAdditions (scope, block) :=
    fun scope _ _ hMoved => second.blockAdditions_eq scope hMoved
  obtain ⟨shuffled, hShuffled, hMoved⟩ := hReordered.extendBlocks
  rw [linkPlan, linkPlan, hAdditions, scopedBlocks, scopedBlocks, List.flatMap_append,
    List.flatMap_append]
  exact (ExtendBlock.perm_flatMap hAnswers hShuffled hMoved []).append
    (Message.perm_scopedBlocksIn hReordered.messages fun one _ =>
      Message.perm_scopedBlocks hAnswers one)

/-- An addition can be made first in both schemas or in none. -/
theorem admits_iff (hReordered : first.Reordered second) (addition : MessagePath × Field) :
    second.Admits [] addition ↔ first.Admits [] addition := by
  unfold Admits
  rcases Message.rel_cases (hReordered.rel_at? addition.1) with
    ⟨hFirst, hSecond⟩ | ⟨one, other, hFirst, hSecond, hTarget⟩
  · simp only [hFirst, hSecond]
  · simp only [hFirst, hSecond, Option.some.injEq, exists_eq_left', Message.Opens,
      Message.IsFree, hTarget.fields_eq, hTarget.extensions_eq]

theorem admitsAll_iff (hReordered : first.Reordered second) :
    second.AdmitsAll [] second.linkPlan ↔ first.AdmitsAll [] first.linkPlan := by
  have hPlan := hReordered.perm_linkPlan
  rw [Schema.admitsAll_iff, Schema.admitsAll_iff, hPlan.pairwise_iff compatible_comm]
  simp only [hReordered.admits_iff, hPlan.mem_iff]

end Reordered

/-- Schemas that differ only in the order of their blocks are both linked or both refused.
Linked, the messages at each path have the fields they had, the same in both schemas, and
after them the same further fields, perhaps in another order. -/
theorem link_reordered {first second : Schema} (hReordered : first.Reordered second) :
    (first.link.2 = none ↔ second.link.2 = none) ∧
      (first.link.2 = none → ∀ path,
        Option.Rel
          (fun one other => ∃ original added moved,
            (first.at? path).map Message.fields = some original ∧
              (second.at? path).map Message.fields = some original ∧
                one.fields = original ++ added ∧ other.fields = original ++ moved ∧
                  added.Perm moved)
          (first.link.1.at? path) (second.link.1.at? path)) := by
  have hBoth : first.link.2 = none ↔ second.link.2 = none := by
    rw [link_eq_none_iff, link_eq_none_iff, hReordered.admitsAll_iff]
  refine ⟨hBoth, fun hFirst path => ?_⟩
  have hOne := fields_at?_link hFirst path
  have hOther := fields_at?_link (hBoth.mp hFirst) path
  rcases Message.rel_cases (hReordered.rel_at? path) with
    ⟨hOne?, hOther?⟩ | ⟨original, moved, hOriginal, hMoved, hTarget⟩
  · rw [hOne?, Option.map_none, Option.map_eq_none_iff] at hOne
    rw [hOther?, Option.map_none, Option.map_eq_none_iff] at hOther
    rw [hOne, hOther]
    exact .none
  · rw [hOriginal, Option.map_some, Option.map_eq_some_iff] at hOne
    rw [hMoved, Option.map_some, hTarget.fields_eq, Option.map_eq_some_iff] at hOther
    obtain ⟨one, hOneAt, hOneFields⟩ := hOne
    obtain ⟨other, hOtherAt, hOtherFields⟩ := hOther
    rw [hOneAt, hOtherAt, hOriginal, hMoved, Option.map_some, Option.map_some, hTarget.fields_eq]
    exact .some ⟨original.fields, _, _, rfl, rfl, hOneFields, hOtherFields,
      (hReordered.perm_linkPlan.filter _).map _⟩

/-- Two blocks at the top level and two in their target, then both pairs the other way
round. -/
theorem link_reordered_pairs :
    let block (name : String) (tag : Nat) : ExtendBlock :=
      ⟨"Book", { Message.new "Book" with fields := [Field.plain name (.scalar "int32") tag] }⟩
    let book (blocks : List ExtendBlock) : Message :=
      { Message.new "Book" with extensions := [⟨100, 199⟩], extendBlocks := blocks }
    let first := { Schema.new .proto2 with
      messages := [book [block "pages" 102, block "weight" 103]]
      extendBlocks := [block "stars" 100, block "price" 101] }
    let second := { Schema.new .proto2 with
      messages := [book [block "weight" 103, block "pages" 102]]
      extendBlocks := [block "price" 101, block "stars" 100] }
    first.Reordered second ∧ first.link.2 = none ∧ second.link.2 = none ∧
      (first.link.1.messages.map fun message => message.fields.map Field.name) =
        [["stars", "price", "pages", "weight"]] ∧
      (second.link.1.messages.map fun message => message.fields.map Field.name) =
        [["price", "stars", "weight", "pages"]] := by
  intro block book first second
  have hBlock : ∀ name tag, (block name tag).Reordered (block name tag) :=
    fun name tag => .intro (.refl _)
  have hReordered : first.Reordered second :=
    ⟨rfl, rfl, rfl, .cons (.intro .nil (.swap _ _ _) (.cons (hBlock _ _) (.cons (hBlock _ _) .nil)))
      .nil, rfl, rfl, ⟨_, .swap _ _ _, .cons (hBlock _ _) (.cons (hBlock _ _) .nil)⟩, rfl, rfl⟩
  have hFirst : first.link.2 = none := by decide
  exact ⟨hReordered, hFirst, (link_reordered hReordered).1.mp hFirst, by decide, by decide⟩

end Schema
end ProtoIdl
