import ProtoIdl.Proofs.Link.Blocks
import ProtoIdl.Proofs.Link.Extended
import ProtoIdl.Proofs.Link.Located

/-!
# What linking does

The plan of a schema lists every field that linking adds, with the path to its target, as
the targets resolve before anything is added.  It goes through the blocks in the order that
`Schema.scopedBlocks_eq` tells.  Linking makes the additions of the plan in
order, up to the first that the target cannot take: the number of the field must lie in an
extension range of the target, and no field of the target, its own or added before, may have
the name or the number of the new one.

`Links` relates the additions to what they come to.  Its rules are the three things that can
happen at one addition, and the linker follows them block by block.
-/

namespace ProtoIdl

/-! ## The plan -/

namespace Schema

/-- The fields that a block adds, each with the path to its target.  A target that the file
does not declare takes none. -/
def blockAdditions (schema : Schema) (entry : List String × ExtendBlock) :
    List (MessagePath × Field) :=
  match schema.locate? entry.1 entry.2.target with
  | none => []
  | some path => entry.2.body.fields.map fun field => (path, field)

/-- Every field that linking adds, in order, with the path to its target. -/
def linkPlan (schema : Schema) : List (MessagePath × Field) :=
  schema.scopedBlocks.flatMap schema.blockAdditions

end Schema

/-- The fields among additions that go to the message at a path. -/
def linkedFields (additions : List (MessagePath × Field)) (path : MessagePath) : List Field :=
  (additions.filter fun addition => addition.1 == path).map Prod.snd

theorem linkedFields_nil : linkedFields [] = fun _ => [] := rfl

/-- One more addition is one more field for its path. -/
theorem linkedFields_concat (done : List (MessagePath × Field)) (path : MessagePath)
    (field : Field) :
    linkedFields (done ++ [(path, field)]) = addExtra (linkedFields done) path field := by
  funext other
  by_cases hSame : other = path
  · subst hSame
    simp [linkedFields, addExtra]
  · have hOther : path ≠ other := fun hEq => hSame hEq.symm
    simp [linkedFields, addExtra, hSame, hOther]

/-! ## Conditions on one addition -/

namespace Message

/-- A number lies in one of the extension ranges. -/
def Opens (message : Message) (tag : Nat) : Prop :=
  ∃ range ∈ message.extensions, range.first ≤ tag ∧ tag ≤ range.last

/-- No field, neither one of the message nor one of `linked`, has the name or the number of
`field`. -/
def IsFree (message : Message) (linked : List Field) (field : Field) : Prop :=
  ∀ other ∈ message.fields ++ linked, other.name ≠ field.name ∧ other.tag ≠ field.tag

theorem acceptsExtension_iff (message : Message) (tag : Nat) :
    message.acceptsExtension tag = true ↔ message.Opens tag := by
  simp [acceptsExtension, Opens, ExtensionRange.contains]

/-- A message with further fields is free for a field when no name or number is found. -/
theorem isFree_iff (message : Message) (extra : MessagePath → List Field) (field : Field) :
    message.IsFree (extra []) field ↔
      (message.extendFields extra).field? field.name = none ∧
        (message.extendFields extra).fieldByTag? field.tag = none := by
  rw [field?, fieldByTag?, fields_extendFields, List.find?_eq_none, List.find?_eq_none]
  constructor
  · intro hFree
    exact ⟨fun other hMem => by simpa using (hFree other hMem).1,
      fun other hMem => by simpa using (hFree other hMem).2⟩
  · rintro ⟨hName, hTag⟩ other hMem
    exact ⟨by simpa using hName other hMem, by simpa using hTag other hMem⟩

/-- A message with the further fields `linked` cannot take a field, and `fault` says why.  The
number is looked at first. -/
def Refuses (message : Message) (linked : List Field) (field : Field) (fault : ParseError) :
    Prop :=
  (¬message.Opens field.tag ∧ fault = .extensionOutOfRange message.name field.tag) ∨
    (message.Opens field.tag ∧ ¬message.IsFree linked field ∧
      fault = .duplicate .extendedField field.name)

/-- A message with further fields takes a field or refuses it. -/
theorem takes_or_refuses (message : Message) (extra : MessagePath → List Field)
    (field : Field) :
    (message.Opens field.tag ∧ message.IsFree (extra []) field ∧
        (message.extendFields extra).extensionFault? field = none) ∨
      ∃ fault, message.Refuses (extra []) field fault ∧
        (message.extendFields extra).extensionFault? field = some fault := by
  unfold extensionFault?
  rw [acceptsExtension_extendFields, name_extendFields]
  -- the number is looked at before the fields that are there
  by_cases hOpens : message.Opens field.tag
  · rw [(message.acceptsExtension_iff _).mpr hOpens, Bool.not_true, if_neg (by decide)]
    by_cases hFree : message.IsFree (extra []) field
    · obtain ⟨hName, hTag⟩ := (message.isFree_iff extra field).mp hFree
      exact .inl ⟨hOpens, hFree, by rw [hName, hTag]; rfl⟩
    · refine .inr ⟨_, .inr ⟨hOpens, hFree, rfl⟩, if_pos ((Bool.not_eq_false _).mp ?_)⟩
      intro hNone
      rw [Bool.or_eq_false_iff, Option.isSome_eq_false_iff,
        Option.isSome_eq_false_iff, Option.isNone_iff_eq_none, Option.isNone_iff_eq_none] at hNone
      exact hFree ((message.isFree_iff extra field).mpr hNone)
  · have hClosed : message.acceptsExtension field.tag = false := by
      rwa [← Bool.not_eq_true, message.acceptsExtension_iff]
    rw [hClosed, Bool.not_false, if_pos rfl]
    exact .inr ⟨_, .inl ⟨hOpens, rfl⟩, rfl⟩

end Message

namespace Schema

/-- After the additions `earlier`, the target of an addition can take its field. -/
def Admits (schema : Schema) (earlier : List (MessagePath × Field))
    (addition : MessagePath × Field) : Prop :=
  ∃ target, schema.at? addition.1 = some target ∧ target.Opens addition.2.tag ∧
    target.IsFree (linkedFields earlier addition.1) addition.2

/-- After the additions `earlier`, the target of an addition refuses its field. -/
def Rejects (schema : Schema) (earlier : List (MessagePath × Field))
    (addition : MessagePath × Field) (fault : ParseError) : Prop :=
  ∃ target, schema.at? addition.1 = some target ∧
    target.Refuses (linkedFields earlier addition.1) addition.2 fault

/-- After the additions `done`, every one of `todo` can be made when those before it have
been. -/
def AdmitsAll (schema : Schema) (done todo : List (MessagePath × Field)) : Prop :=
  ∀ earlier addition later, todo = earlier ++ addition :: later →
    schema.Admits (done ++ earlier) addition

theorem admitsAll_nil (schema : Schema) (done : List (MessagePath × Field)) :
    schema.AdmitsAll done [] := by
  intro earlier addition later hSplit
  simp at hSplit

theorem admitsAll_cons {schema : Schema} {done todo : List (MessagePath × Field)}
    {addition : MessagePath × Field} (hAdmits : schema.Admits done addition)
    (hTodo : schema.AdmitsAll (done ++ [addition]) todo) :
    schema.AdmitsAll done (addition :: todo) := by
  intro earlier other later hSplit
  cases earlier with
  | nil =>
      cases hSplit
      simpa using hAdmits
  | cons first earlier =>
      cases hSplit
      simpa using hTodo earlier other later rfl

theorem not_admits_of_rejects {schema : Schema} {earlier : List (MessagePath × Field)}
    {addition : MessagePath × Field} {fault : ParseError}
    (hRejects : schema.Rejects earlier addition fault) : ¬schema.Admits earlier addition := by
  obtain ⟨target, hTarget, hRefuses⟩ := hRejects
  rintro ⟨other, hOther, hOpens, hFree⟩
  rw [hTarget] at hOther
  cases hOther
  rcases hRefuses with ⟨hClosed, -⟩ | ⟨-, hTaken, -⟩
  · exact hClosed hOpens
  · exact hTaken hFree

/-! ## Making additions in order -/

/-- What the additions `todo` come to after the additions `done`: the schema in the end, and
the fault that stopped them, if one did. -/
inductive Links (schema : Schema) :
    List (MessagePath × Field) → List (MessagePath × Field) → Schema × Option ParseError → Prop
  /-- No addition is left. -/
  | finish (done : List (MessagePath × Field)) :
      Links schema done [] (schema.extendFields (linkedFields done), none)
  /-- The target refuses the field. -/
  | stop {done todo : List (MessagePath × Field)} {addition : MessagePath × Field}
      {fault : ParseError} (hRejects : schema.Rejects done addition fault) :
      Links schema done (addition :: todo)
        (schema.extendFields (linkedFields done), some fault)
  /-- The target takes the field, and the others follow. -/
  | add {done todo : List (MessagePath × Field)} {addition : MessagePath × Field}
      {result : Schema × Option ParseError} (hAdmits : schema.Admits done addition)
      (hLinks : Links schema (done ++ [addition]) todo result) :
      Links schema done (addition :: todo) result

namespace Links

variable {schema : Schema} {done first second : List (MessagePath × Field)}
  {result : Schema × Option ParseError}

/-- Additions that are all made are followed by others. -/
theorem append {grown : Schema} (hFirst : Links schema done first (grown, none))
    (hSecond : grown = schema.extendFields (linkedFields (done ++ first)) →
      Links schema (done ++ first) second result) :
    Links schema done (first ++ second) result := by
  -- the induction needs a variable for the outcome, and a fault contradicts what it stands for
  generalize hOutcome : (grown, (none : Option ParseError)) = outcome at hFirst
  induction hFirst with
  | finish done =>
      cases hOutcome
      simpa using hSecond (by simp)
  | stop hRejects => cases hOutcome
  | @add done todo addition outcome hAdmits hLinks ih =>
      refine .add hAdmits (ih ?_ hOutcome)
      intro hGrown
      simpa using hSecond (by simpa using hGrown)

/-- A fault stops the additions that follow, too. -/
theorem append_of_fault {stuck : Schema} {fault : ParseError}
    (hFirst : Links schema done first (stuck, some fault)) :
    Links schema done (first ++ second) (stuck, some fault) := by
  generalize hOutcome : (stuck, some fault) = outcome at hFirst ⊢
  induction hFirst with
  | finish done => cases hOutcome
  | stop hRejects => exact .stop hRejects
  | add hAdmits hLinks ih => exact .add hAdmits (ih hOutcome)

/-- When no fault stops them, every addition has been made, and each could be. -/
theorem of_finish {linked : Schema} (hLinks : Links schema done first (linked, none)) :
    schema.AdmitsAll done first ∧ linked = schema.extendFields (linkedFields (done ++ first)) := by
  generalize hOutcome : (linked, (none : Option ParseError)) = outcome at hLinks
  induction hLinks with
  | finish done =>
      cases hOutcome
      exact ⟨admitsAll_nil schema done, by rw [List.append_nil]⟩
  | stop hRejects => cases hOutcome
  | add hAdmits hLinks ih =>
      obtain ⟨hTodo, hLinked⟩ := ih hOutcome
      exact ⟨admitsAll_cons hAdmits hTodo, by simpa using hLinked⟩

/-- A fault is the one of the first addition that cannot be made, and those before it have
been made. -/
theorem of_fault {stuck : Schema} {fault : ParseError}
    (hLinks : Links schema done first (stuck, some fault)) :
    ∃ earlier addition later, first = earlier ++ addition :: later ∧
      schema.AdmitsAll done earlier ∧ schema.Rejects (done ++ earlier) addition fault ∧
        stuck = schema.extendFields (linkedFields (done ++ earlier)) := by
  generalize hOutcome : (stuck, some fault) = outcome at hLinks
  induction hLinks with
  | finish done => cases hOutcome
  | @stop done todo addition other hRejects =>
      cases hOutcome
      refine ⟨[], addition, todo, rfl, admitsAll_nil schema done, ?_, ?_⟩
      · rwa [List.append_nil]
      · rw [List.append_nil]
  | @add done todo addition outcome hAdmits hLinks ih =>
      obtain ⟨earlier, other, later, hSplit, hEarlier, hRejects, hStuck⟩ := ih hOutcome
      refine ⟨addition :: earlier, other, later, by rw [hSplit]; rfl,
        admitsAll_cons hAdmits hEarlier, ?_, ?_⟩
      · simpa using hRejects
      · simpa using hStuck

end Links

/-- The fields of a block are added one by one. -/
theorem links_addFields {schema : Schema} {path : MessagePath} {target : Message}
    (hTarget : schema.at? path = some target) (fields : List Field)
    (done : List (MessagePath × Field)) :
    schema.Links done (fields.map fun field => (path, field))
      ((schema.extendFields (linkedFields done)).addFields path fields) := by
  have hPath : path ≠ [] := by
    rintro rfl
    cases hTarget
  induction fields generalizing done with
  | nil => exact .finish done
  | cons field rest ih =>
      -- the target stands where it did, with the fields added to it so far
      have hGrown : (schema.extendFields (linkedFields done)).at? path =
          some (target.extendFields fun below => linkedFields done (path ++ below)) := by
        rw [at?_extendFields, hTarget]
        rfl
      have hOwn : linkedFields done (path ++ []) = linkedFields done path := by
        rw [List.append_nil]
      rw [List.map_cons, addFields, hGrown, Option.bind_some]
      rcases target.takes_or_refuses (fun below => linkedFields done (path ++ below)) field with
        ⟨hOpens, hFree, hFault⟩ | ⟨fault, hRefuses, hFault⟩
      · rw [hFault]
        simp only
        rw [modifyAt_extendFields schema hPath, ← linkedFields_concat]
        rw [hOwn] at hFree
        exact .add ⟨target, hTarget, hOpens, hFree⟩ (ih (done ++ [(path, field)]))
      · rw [hFault]
        simp only
        rw [hOwn] at hRefuses
        exact .stop ⟨target, hTarget, hRefuses⟩

/-- One block makes the additions that the plan lists for it. -/
theorem links_linkBlock (schema : Schema) (entry : List String × ExtendBlock)
    (done : List (MessagePath × Field)) :
    schema.Links done (schema.blockAdditions entry)
      ((schema.extendFields (linkedFields done)).linkBlock entry) := by
  -- what has been added so far does not change where the name leads
  rw [blockAdditions, linkBlock, locate?_extendFields]
  cases hLocate : schema.locate? entry.1 entry.2.target with
  | none => exact .finish done
  | some path =>
      obtain ⟨target, hTarget, -⟩ := exists_at?_of_locate? hLocate
      exact links_addFields hTarget entry.2.body.fields done

/-- Blocks make their additions in order. -/
theorem links_linkBlocks (schema : Schema) (entries : List (List String × ExtendBlock))
    (done : List (MessagePath × Field)) :
    schema.Links done (entries.flatMap schema.blockAdditions)
      ((schema.extendFields (linkedFields done)).linkBlocks entries) := by
  induction entries generalizing done with
  | nil => exact .finish done
  | cons entry rest ih =>
      have hBlock := schema.links_linkBlock entry done
      rw [List.flatMap_cons, linkBlocks]
      split
      · next stuck fault hRun =>
          rw [hRun] at hBlock
          exact hBlock.append_of_fault
      · next grown hRun =>
          rw [hRun] at hBlock
          refine hBlock.append fun hGrown => ?_
          rw [hGrown]
          exact ih (done ++ schema.blockAdditions entry)

/-- Linking makes the additions of the plan. -/
theorem links_link (schema : Schema) : schema.Links [] schema.linkPlan schema.link := by
  have hLinks := schema.links_linkBlocks schema.scopedBlocks []
  rwa [linkedFields_nil, extendFields_none] at hLinks

/-- Linking succeeds exactly when every addition of the plan can be made in its turn.  Then
each message has the fields of the plan for it after its own, in order, and nothing else has
changed.  Otherwise the fault is that of the first addition that cannot be made, and just
those before it have been made.  Either way names resolve as before. -/
theorem link_spec (schema : Schema) :
    (schema.link.2 = none ↔ schema.AdmitsAll [] schema.linkPlan) ∧
      (schema.link.2 = none →
        schema.link.1 = schema.extendFields (linkedFields schema.linkPlan)) ∧
      (∀ fault, schema.link.2 = some fault →
        ∃ earlier addition later, schema.linkPlan = earlier ++ addition :: later ∧
          schema.AdmitsAll [] earlier ∧ schema.Rejects earlier addition fault ∧
            schema.link.1 = schema.extendFields (linkedFields earlier)) ∧
      ∀ scope name, schema.link.1.locate? scope name = schema.locate? scope name := by
  have hLinks := schema.links_link
  rcases hLink : schema.link with ⟨linked, fault?⟩
  rw [hLink] at hLinks
  cases fault? with
  | none =>
      obtain ⟨hAdmits, hLinked⟩ := hLinks.of_finish
      refine ⟨⟨fun _ => hAdmits, fun _ => rfl⟩, fun _ => hLinked, ?_, ?_⟩
      · rintro fault ⟨⟩
      · intro scope name
        rw [hLinked, locate?_extendFields]
  | some fault =>
      obtain ⟨earlier, addition, later, hPlan, hEarlier, hRejects, hStuck⟩ := hLinks.of_fault
      refine ⟨⟨?_, ?_⟩, ?_, ?_, ?_⟩
      · rintro ⟨⟩
      · -- the addition that was rejected is among those that could all be made
        intro hAll
        exact absurd (hAll earlier addition later hPlan) (not_admits_of_rejects hRejects)
      · rintro ⟨⟩
      · rintro other ⟨⟩
        exact ⟨earlier, addition, later, hPlan, hEarlier, hRejects, hStuck⟩
      · intro scope name
        rw [hStuck, locate?_extendFields]

/-- A number that is taken stops the linking, and the field before it stays. -/
example :
    let stars := Field.plain "stars" (.scalar "int32") 100
    let price := Field.plain "price" (.scalar "int32") 100
    let book := { Message.new "Book" with extensions := [⟨100, 199⟩] }
    let block : ExtendBlock := ⟨"Book", { Message.new "Book" with fields := [stars, price] }⟩
    let schema := { Schema.new .proto2 with messages := [book], extendBlocks := [block] }
    (schema.link.1.messages.map fun message => message.fields.map Field.name) = [["stars"]] ∧
      schema.link.2 = some (.duplicate .extendedField "price") := by
  decide

end Schema
end ProtoIdl
