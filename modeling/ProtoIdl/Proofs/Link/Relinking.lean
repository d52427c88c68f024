import ProtoIdl.Proofs.Extend.Blocks

/-!
# Linking a second time

Linking leaves the blocks where they are, and the fields that they added stay in their
targets.  So the plan of a linked schema is the plan it had before, and the first addition of
this plan finds its own field in the way: the second run either has nothing to add, or it
stops at once.  It cannot stop for a number that is not open, since the same number was open
when the field was added the first time and linking changes no range.
-/

namespace ProtoIdl
namespace Schema

variable {schema linked : Schema}

/-! ## Blocks that add something -/

/-- A block has a field to add, and a message to add it to. -/
def Contributes (schema : Schema) (entry : List String × ExtendBlock) : Prop :=
  entry.2.body.fields ≠ [] ∧ ∃ path, schema.locate? entry.1 entry.2.target = some path

theorem blockAdditions_eq_nil_iff {entry : List String × ExtendBlock} :
    schema.blockAdditions entry = [] ↔ ¬schema.Contributes entry := by
  unfold blockAdditions Contributes
  cases hLocate : schema.locate? entry.1 entry.2.target with
  | none => simp
  | some path => simp

/-- A block that adds something adds its first field first. -/
theorem blockAdditions_eq_cons {entry : List String × ExtendBlock}
    (hContributes : schema.Contributes entry) :
    ∃ path field rest, entry.2.body.fields = field :: rest ∧
      schema.blockAdditions entry = (path, field) :: rest.map fun other => (path, other) := by
  obtain ⟨hFields, path, hLocate⟩ := hContributes
  obtain ⟨field, rest, hSplit⟩ := List.exists_cons_of_ne_nil hFields
  use path, field, rest
  constructor
  · exact hSplit
  · rw [blockAdditions, hLocate, hSplit]
    rfl

/-- The blocks before the first that adds something make no part of the plan. -/
theorem flatMap_blockAdditions_eq_nil {entries : List (List String × ExtendBlock)}
    (hNone : ∀ entry ∈ entries, ¬schema.Contributes entry) :
    entries.flatMap schema.blockAdditions = [] := by
  apply List.flatMap_eq_nil_iff.mpr
  intro entry hMem
  exact blockAdditions_eq_nil_iff.mpr (hNone entry hMem)

/-- No block adds anything, or one is the first to do so. -/
theorem exists_first_contributes (schema : Schema) (entries : List (List String × ExtendBlock)) :
    (∀ entry ∈ entries, ¬schema.Contributes entry) ∨
      ∃ earlier entry later, entries = earlier ++ entry :: later ∧
        (∀ other ∈ earlier, ¬schema.Contributes other) ∧ schema.Contributes entry := by
  induction entries with
  | nil =>
      left
      simp
  | cons entry rest ih =>
      by_cases hEntry : schema.Contributes entry
      · right
        use [], entry, rest
        simp [hEntry]
      · rcases ih with hNone | ⟨earlier, found, later, hSplit, hEarlier, hFound⟩
        · left
          simpa [hEntry] using hNone
        · right
          use entry :: earlier, found, later
          simpa [hSplit, hEntry, hFound] using hEarlier

/-! ## What a first run leaves -/

theorem blockAdditions_extendFields (schema : Schema) (extra : MessagePath → List Field) :
    (schema.extendFields extra).blockAdditions = schema.blockAdditions := by
  funext entry
  rw [blockAdditions, blockAdditions, locate?_extendFields]

/-- Neither blocks nor targets change, so the plan is as before. -/
theorem linkPlan_extendFields (schema : Schema) (extra : MessagePath → List Field) :
    (schema.extendFields extra).linkPlan = schema.linkPlan := by
  rw [linkPlan, linkPlan, scopedBlocks_extendFields, blockAdditions_extendFields]

theorem contributes_extendFields (extra : MessagePath → List Field)
    (entry : List String × ExtendBlock) :
    (schema.extendFields extra).Contributes entry ↔ schema.Contributes entry := by
  rw [Contributes, Contributes, locate?_extendFields]

/-- An addition that has been made cannot be made again: the number is still open, and the
field itself is in the way. -/
theorem rejects_again {plan earlier later : List (MessagePath × Field)}
    {addition : MessagePath × Field} (hPlan : plan = earlier ++ addition :: later)
    (hAdmits : schema.Admits earlier addition) :
    (schema.extendFields (linkedFields plan)).Rejects [] addition
      (.duplicate .extendedField addition.2.name) := by
  obtain ⟨target, hTarget, hOpens, -⟩ := hAdmits
  let grown := target.extendFields fun below => linkedFields plan (addition.1 ++ below)
  have hGrown : (schema.extendFields (linkedFields plan)).at? addition.1 = some grown := by
    rw [at?_extendFields, hTarget]
    rfl
  have hStillOpens : grown.Opens addition.2.tag := by
    rw [← Message.acceptsExtension_iff] at hOpens ⊢
    rwa [Message.acceptsExtension_extendFields]
  have hTaken : addition.2 ∈ grown.fields := by
    rw [Message.fields_extendFields, List.append_nil]
    apply List.mem_append_right
    have hMem : addition ∈ plan := by simp [hPlan]
    exact List.mem_map.mpr ⟨addition, List.mem_filter.mpr ⟨hMem, beq_self_eq_true _⟩, rfl⟩
  use grown
  constructor
  · exact hGrown
  · right
    refine ⟨hStillOpens, fun hFree => ?_, rfl⟩
    exact (hFree addition.2 (List.mem_append_left _ hTaken)).1 rfl

/-- A message does not refuse a field for two reasons. -/
theorem rejects_unique {earlier : List (MessagePath × Field)} {addition : MessagePath × Field}
    {one other : ParseError} (hOne : schema.Rejects earlier addition one)
    (hOther : schema.Rejects earlier addition other) : other = one := by
  obtain ⟨target, hTarget, hRefuses⟩ := hOne
  obtain ⟨same, hSame, hAgain⟩ := hOther
  rw [hTarget] at hSame
  cases hSame
  rcases hRefuses with ⟨hClosed, rfl⟩ | ⟨hOpens, -, rfl⟩ <;>
    rcases hAgain with ⟨hClosed', rfl⟩ | ⟨hOpens', -, rfl⟩
  · rfl
  · exact absurd hOpens' hClosed
  · exact absurd hOpens hClosed'
  · rfl

/-- A run whose first addition is refused stops there, and leaves the schema as it is. -/
theorem link_of_rejects {addition : MessagePath × Field} {later : List (MessagePath × Field)}
    {fault : ParseError} (hPlan : schema.linkPlan = addition :: later)
    (hRejects : schema.Rejects [] addition fault) : schema.link = (schema, some fault) := by
  have hLinks := schema.links_link
  rw [hPlan] at hLinks
  generalize schema.link = outcome at hLinks
  cases hLinks with
  | stop hOther => rw [rejects_unique hRejects hOther, linkedFields_nil, extendFields_none]
  | add hAdmits hRest => exact absurd hAdmits (not_admits_of_rejects hRejects)

/-- A run with an empty plan changes nothing. -/
theorem link_of_linkPlan_eq_nil (hPlan : schema.linkPlan = []) : schema.link = (schema, none) := by
  have hLinks := schema.links_link
  rw [hPlan] at hLinks
  generalize schema.link = outcome at hLinks
  cases hLinks
  rw [linkedFields_nil, extendFields_none]

/-! ## The second run -/

/-- A schema that has been linked can be linked again if none of its blocks adds anything, and
nothing changes.  Otherwise the second run fails with the first field of the first block that
does, in the order of linking, and nothing changes either.  Which blocks there are, in which
order, and which of them add something is as it was before the first run. -/
theorem link_link (hLink : schema.link.2 = none) :
    (schema.link.1.scopedBlocks = schema.scopedBlocks ∧
        ∀ entry, schema.link.1.Contributes entry ↔ schema.Contributes entry) ∧
      (((∀ entry ∈ schema.scopedBlocks, ¬schema.Contributes entry) ∧
          schema.link.1.link = (schema.link.1, none)) ∨
        ∃ earlier entry later field rest,
          schema.scopedBlocks = earlier ++ entry :: later ∧
            (∀ other ∈ earlier, ¬schema.Contributes other) ∧ schema.Contributes entry ∧
              entry.2.body.fields = field :: rest ∧
                schema.link.1.link =
                  (schema.link.1, some (.duplicate .extendedField field.name))) := by
  obtain ⟨hSpec, hGrown, -⟩ := schema.link_spec
  have hAdmits := hSpec.mp hLink
  have hLinked := hGrown hLink
  have hPlan : schema.link.1.linkPlan = schema.linkPlan := by
    rw [hLinked, linkPlan_extendFields]
  constructor
  · constructor
    · rw [hLinked, scopedBlocks_extendFields]
    · intro entry
      rw [hLinked, contributes_extendFields]
  rcases schema.exists_first_contributes schema.scopedBlocks with
    hNone | ⟨earlier, entry, later, hSplit, hEarlier, hEntry⟩
  · left
    constructor
    · exact hNone
    · exact link_of_linkPlan_eq_nil (hPlan.trans (flatMap_blockAdditions_eq_nil hNone))
  · right
    obtain ⟨path, field, rest, hFields, hAdditions⟩ := blockAdditions_eq_cons hEntry
    -- the plan of both runs begins with the first field of this block
    have hFirst : schema.linkPlan = (path, field) ::
        (rest.map (fun other => (path, other)) ++ later.flatMap schema.blockAdditions) := by
      rw [linkPlan, hSplit, List.flatMap_append, flatMap_blockAdditions_eq_nil hEarlier,
        List.flatMap_cons, hAdditions]
      rfl
    have hRejects := rejects_again hFirst (hAdmits [] _ _ hFirst)
    rw [← hLinked] at hRejects
    have hRun := link_of_rejects (hPlan.trans hFirst) hRejects
    exact ⟨earlier, entry, later, field, rest, hSplit, hEarlier, hEntry, hFields, hRun⟩

/-- A block for a message that is not declared and a block without fields are passed over; the
block in a message is the first that adds something. -/
theorem link_link_nested :
    let block (target : String) (fields : List Field) : ExtendBlock :=
      ⟨target, { Message.new target with fields := fields }⟩
    let stars := Field.plain "stars" (.scalar "int32") 100
    let book := { Message.new "Book" with
      extensions := [⟨100, 199⟩]
      extendBlocks := [block "Book" [stars]] }
    let schema := { Schema.new .proto2 with
      messages := [book]
      extendBlocks := [block "Missing" [stars], block "Book" []] }
    schema.link.2 = none ∧
      (schema.link.1.messages.map fun message => message.fields.map Field.name) = [["stars"]] ∧
        schema.link.1.link = (schema.link.1, some (.duplicate .extendedField "stars")) := by
  intro block stars book schema
  have hLink : schema.link.2 = none := by decide
  have hFault : schema.link.1.link.2 = some (.duplicate .extendedField "stars") := by decide
  refine ⟨hLink, by decide, Prod.ext ?_ hFault⟩
  -- which of the two it is does not matter here: neither changes the schema
  rcases (link_link hLink).2 with ⟨-, hRun⟩ | ⟨_, _, _, _, _, -, -, -, -, hRun⟩
  · rw [hRun]
  · rw [hRun]

end Schema
end ProtoIdl
