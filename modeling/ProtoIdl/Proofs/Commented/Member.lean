import ProtoIdl.Proofs.Commented.Steady

/-!
# Places among members of lists

A member of an enum, of a service or of a group changes one part of its list.  The comments of a
target come into the list by its last member, if that is the target, and otherwise they were in the
list before.  With this, an enum, a service and a group have places for the comments of all their
members.
-/

namespace ProtoIdl

namespace Parser

variable {start after : Cursor}

/-- What is built of an answer tells how the answer is read. -/
theorem exists_of_run_build {parser : Parser α} {build : α → β} {built : β}
    (hTraced : parser.Traced start)
    (hRun : (parser >>= fun value => pure (build value)).run start = .ok built after)
    (hDepth : after.depth = start.depth) :
    ∃ value, built = build value ∧ parser.run start = .ok value after ∧
      parser.ReadsAt start.depth start.limit start.rest value after.rest := by
  obtain ⟨value, between, hValue, hBuild⟩ := run_bind_eq_ok_iff.mp hRun
  cases hBuild
  exact ⟨value, rfl, hValue, .of_run hTraced hValue hDepth⟩

/-- A step that stands by itself reads its tokens alone. -/
theorem Detached.exists_alone {parser : Parser α} {value : α} (hParser : Detached parser)
    (hSeen : start.seen ≠ []) (hRun : parser.run start = .ok value after)
    (hDepth : after.depth = start.depth) :
    ∃ used, start.rest = used ++ after.rest ∧
      parser.ReadsAt start.depth start.limit used value [] := by
  obtain ⟨-, -, used, hUsed, -⟩ := onward_of_ok hRun
  have hAlone := hParser.readsAt hSeen hRun hDepth hUsed (fun hHead : ([] : List Token).head? = _ =>
    nomatch hHead)
  rw [List.append_nil] at hAlone
  exact ⟨used, hUsed, hAlone⟩

section Members

variable {Slot : σ → Declaration → (List String → σ) → Prop}
  {item : σ → List String × Token → Parser σ} {state grown : σ} {first : Token}
  {target : Declaration} {family : List String → σ}

/-- A member that changes nothing. -/
theorem memberPlaces_pure
    (hItem : ∀ other comments, item other (comments, first) = pure other)
    (hRun : (item state ([], first)).run start = .ok grown after)
    (hSlot : Slot grown target family) :
    MemberPlaces Slot item start.depth start.limit state first start.rest target family
      after.rest := by
  rw [hItem] at hRun
  cases hRun
  refine .earlier hSlot fun comments => ?_
  rw [hItem]
  exact .pure _

/-- A member that adds a part to its state: the target was in the state before, or it comes in with
the part. -/
theorem memberPlaces_listed {Part : α → Declaration → (List String → α) → Prop}
    {parser : List String → Parser α} {add : σ → α → σ}
    (hItem : ∀ other comments, item other (comments, first) =
      parser comments >>= fun part => pure (add other part))
    (hAdd : ∀ part, Slot (add state part) target family →
      (∃ earlier, Slot state target earlier ∧
          ∀ comments, family comments = add (earlier comments) part) ∨
        ∃ own, Part part target own ∧ ∀ comments, family comments = add state (own comments))
    (hPart : ∀ part own, (parser []).run start = .ok part after → Part part target own →
      PartPlaces parser start.depth start.limit first start.rest target own after.rest)
    (hTraced : (parser []).Traced start)
    (hRun : (item state ([], first)).run start = .ok grown after)
    (hDepth : after.depth = start.depth) (hSlot : Slot grown target family) :
    MemberPlaces Slot item start.depth start.limit state first start.rest target family
      after.rest := by
  rw [hItem] at hRun
  obtain ⟨part, rfl, hParser, hReads⟩ := exists_of_run_build hTraced hRun hDepth
  rcases hAdd part hSlot with ⟨earlier, hEarlier, hFamily⟩ | ⟨own, hOwn, hFamily⟩
  · refine .earlier hEarlier fun comments => ?_
    rw [hItem, hFamily]
    exact hReads.bind (.pure _)
  · refine ((hPart part own hParser hOwn).bind (hItem state) fun comments => ?_).memberPlaces
    rw [hFamily]
    exact .pure _

end Members

end Parser

namespace Grammar

open ProtoIdl.Parser

variable {start after : Cursor} {first : Token} {target : Declaration}

/-! ## Enum values -/

/-- The comments of a value are those that its parser is given. -/
theorem enumValueRest_comments (comments : List String) (first : Token) :
    enumValueRest comments first =
      enumValueRest [] first >>= fun value => pure { value with comments := comments } := by
  simp only [enumValueRest, enumValueBody, bind_assoc, pure_bind]

theorem detached_enumValueRest (comments : List String) (first : Token) :
    Detached (enumValueRest comments first) where
  traced _ hSeen := traced_enumValueRest hSeen comments first
  closed _ hSeen := .of_settled (settled_enumValueRest hSeen comments first)
  looksAhead _ := looksAhead_enumValueRest comments first

/-- What can begin in an enum with a token. -/
theorem enumMember_cases (first : Token) :
    (∀ decl comments, enumMember decl (comments, first) = pure decl) ∨
      (∀ decl comments, enumMember decl (comments, first) =
        bindOptionRest decl.options >>= fun options => pure { decl with options := options }) ∨
      (∀ decl comments, enumMember decl (comments, first) =
        reservedRest maxEnumNumber decl.reserved >>= fun reserved =>
          pure { decl with reserved := reserved }) ∨
      ∀ decl comments, enumMember decl (comments, first) =
        enumValueRest comments first >>= fun value => ofExcept (addEnumValue decl value) := by
  by_cases hEmpty : first = ";"
  · exact .inl fun _ _ => if_pos hEmpty
  · simp only [enumMember, if_neg hEmpty]
    split
    · exact .inr (.inl fun _ _ => rfl)
    · exact .inr (.inr (.inl fun _ _ => rfl))
    · exact .inr (.inr (.inr fun _ _ => rfl))

theorem addEnumValue_eq_ok {decl grown : EnumDecl} {value : EnumValue}
    (hAdd : addEnumValue decl value = .ok grown) :
    value.name ∉ decl.values.map EnumValue.name ∧
      grown = { decl with values := decl.values ++ [value] } := by
  have hNew : value.name ∉ decl.values.map EnumValue.name := by
    intro hMem
    rw [addEnumValue_of_mem hMem] at hAdd
    cases hAdd
  rw [addEnumValue_of_not_mem hNew] at hAdd
  cases hAdd
  exact ⟨hNew, rfl⟩

/-- A value that is read begins with its first token. -/
theorem opens_value {value : EnumValue} (hSeen : start.seen ≠ [])
    (hLevel : start.depth ≤ start.limit)
    (hRun : (enumValueRest [] first).run start = .ok value after)
    (hDepth : after.depth = start.depth) :
    (Declaration.value value).Opens start.limit (first :: start.rest) := by
  obtain ⟨used, hUsed, hAlone⟩ :=
    (detached_enumValueRest [] first).exists_alone hSeen hRun hDepth
  refine ⟨first :: used, after.rest, start.depth, congrArg (first :: ·) hUsed, ?_⟩
  exact ((reads_next first _ _).here hLevel).bind hAlone

theorem partPlaces_value {value : EnumValue} {family : List String → EnumValue}
    (hSeen : start.seen ≠ []) (hLevel : start.depth ≤ start.limit)
    (hRun : (enumValueRest [] first).run start = .ok value after)
    (hDepth : after.depth = start.depth) (hSlot : value.Slot target family) :
    PartPlaces (fun comments => enumValueRest comments first) start.depth start.limit first
      start.rest target family after.rest := by
  have hReads : (enumValueRest [] first).ReadsAt start.depth start.limit start.rest value
      after.rest := .of_run (traced_enumValueRest hSeen [] first) hRun hDepth
  cases hSlot
  refine .own (opens_value hSeen hLevel hRun hDepth) fun comments => ?_
  rw [enumValueRest_comments]
  exact hReads.bind (.pure _)

theorem memberPlaces_enumMember {decl grown : EnumDecl} {family : List String → EnumDecl}
    (hSeen : start.seen ≠ []) (hLevel : start.depth ≤ start.limit)
    (hRun : (enumMember decl ([], first)).run start = .ok grown after)
    (hDepth : after.depth = start.depth) (hSlot : grown.MemberSlot target family) :
    MemberPlaces EnumDecl.MemberSlot enumMember start.depth start.limit decl first start.rest
      target family after.rest := by
  rcases enumMember_cases first with hMember | hMember | hMember | hMember
  · exact memberPlaces_pure hMember hRun hSlot
  · rw [hMember] at hRun
    obtain ⟨options, rfl, -, hReads⟩ := exists_of_run_build (traced_bindOptionRest _) hRun hDepth
    obtain ⟨hList⟩ := hSlot
    refine .earlier (.value hList) fun comments => ?_
    rw [hMember]
    exact hReads.bind (.pure _)
  · rw [hMember] at hRun
    obtain ⟨reserved, rfl, -, hReads⟩ := exists_of_run_build (traced_reservedRest _ _) hRun hDepth
    obtain ⟨hList⟩ := hSlot
    refine .earlier (.value hList) fun comments => ?_
    rw [hMember]
    exact hReads.bind (.pure _)
  · rw [hMember] at hRun
    obtain ⟨value, between, hValue, hResult⟩ := run_bind_eq_ok_iff.mp hRun
    obtain ⟨hAdd, rfl⟩ := eq_of_run_ofExcept hResult
    obtain ⟨hNew, rfl⟩ := addEnumValue_eq_ok hAdd
    obtain ⟨hList⟩ := hSlot
    rcases hList.of_concat with ⟨earlier, hEarlier, hFamily⟩ | ⟨own, hOwn, hFamily⟩
    · -- the names of the earlier values do not depend on their comments
      refine .earlier (.value hEarlier) fun comments => ?_
      have hReads : (enumValueRest [] first).ReadsAt start.depth start.limit start.rest value
          after.rest := .of_run (traced_enumValueRest hSeen [] first) hValue hDepth
      have hNames : (earlier comments).map EnumValue.name = decl.values.map EnumValue.name :=
        hEarlier.map_eq (fun _ _ _ _ hOwn => by cases hOwn; rfl) comments
      rw [← hNames] at hNew
      have hAgain : addEnumValue { decl with values := earlier comments } value = _ :=
        addEnumValue_of_not_mem hNew
      rw [hMember, hFamily]
      exact hReads.bind (.ofExcept hAgain)
    · have hPart := partPlaces_value hSeen hLevel hValue hDepth hOwn
      refine (hPart.bind (hMember decl) fun comments => ?_).memberPlaces
      cases hOwn
      have hAgain : addEnumValue decl { value with comments := comments } = _ :=
        addEnumValue_of_not_mem hNew
      rw [hFamily]
      exact .ofExcept hAgain

/-! ## Methods -/

theorem rpcRest_comments (comments : List String) :
    rpcRest comments =
      rpcRest [] >>= fun method => pure { method with comments := comments } := by
  simp only [rpcRest, bind_assoc, pure_bind]

theorem detached_rpcRest (comments : List String) : Detached (rpcRest comments) where
  traced _ _ := traced_rpcRest comments
  closed _ _ := closed_rpcRest comments
  looksAhead _ := looksAhead_rpcRest comments

/-- What can begin in a service with a token. -/
theorem serviceMember_cases (first : Token) :
    (∀ service comments, serviceMember service (comments, first) = pure service) ∨
      (∀ service comments, serviceMember service (comments, first) =
        bindOptionRest service.options >>= fun options =>
          pure { service with options := options }) ∨
      ((Keyword.ofToken? first = some .function ∨ Keyword.ofToken? first = some .rpc) ∧
        ∀ service comments, serviceMember service (comments, first) =
          rpcRest comments >>= fun method =>
            pure { service with methods := service.methods ++ [method] }) ∨
      ∀ service comments, serviceMember service (comments, first) = rejectLast "service" := by
  by_cases hEmpty : first = ";"
  · exact .inl fun _ _ => if_pos hEmpty
  · simp only [serviceMember, if_neg hEmpty]
    split
    · exact .inr (.inl fun _ _ => rfl)
    · next hFirst => exact .inr (.inr (.inl ⟨.inl hFirst, fun _ _ => rfl⟩))
    · next hFirst => exact .inr (.inr (.inl ⟨.inr hFirst, fun _ _ => rfl⟩))
    · exact .inr (.inr (.inr fun _ _ => rfl))

theorem opens_method {declared : RpcMethod}
    (hFirst : Keyword.ofToken? first = some .function ∨ Keyword.ofToken? first = some .rpc)
    (hSeen : start.seen ≠ []) (hLevel : start.depth ≤ start.limit)
    (hRun : (rpcRest []).run start = .ok declared after) (hDepth : after.depth = start.depth) :
    (Declaration.method declared).Opens start.limit (first :: start.rest) := by
  obtain ⟨used, hUsed, hAlone⟩ := (detached_rpcRest []).exists_alone hSeen hRun hDepth
  refine ⟨first :: used, after.rest, start.depth, congrArg (first :: ·) hUsed, ?_⟩
  refine ((reads_next first _ _).here hLevel).bind ?_
  rcases hFirst with hFirst | hFirst <;>
    · simp only [hFirst]
      exact hAlone

theorem partPlaces_method {declared : RpcMethod} {family : List String → RpcMethod}
    (hFirst : Keyword.ofToken? first = some .function ∨ Keyword.ofToken? first = some .rpc)
    (hSeen : start.seen ≠ []) (hLevel : start.depth ≤ start.limit)
    (hRun : (rpcRest []).run start = .ok declared after) (hDepth : after.depth = start.depth)
    (hSlot : declared.Slot target family) :
    PartPlaces rpcRest start.depth start.limit first start.rest target family after.rest := by
  have hReads : (rpcRest []).ReadsAt start.depth start.limit start.rest declared after.rest :=
    .of_run (traced_rpcRest []) hRun hDepth
  cases hSlot
  refine .own (opens_method hFirst hSeen hLevel hRun hDepth) fun comments => ?_
  rw [rpcRest_comments]
  exact hReads.bind (.pure _)

theorem memberPlaces_serviceMember {service grown : Service} {family : List String → Service}
    (hSeen : start.seen ≠ []) (hLevel : start.depth ≤ start.limit)
    (hRun : (serviceMember service ([], first)).run start = .ok grown after)
    (hDepth : after.depth = start.depth) (hSlot : grown.MemberSlot target family) :
    MemberPlaces Service.MemberSlot serviceMember start.depth start.limit service first start.rest
      target family after.rest := by
  rcases serviceMember_cases first with hMember | hMember | ⟨hFirst, hMember⟩ | hMember
  · exact memberPlaces_pure hMember hRun hSlot
  · rw [hMember] at hRun
    obtain ⟨options, rfl, -, hReads⟩ := exists_of_run_build (traced_bindOptionRest _) hRun hDepth
    obtain ⟨hList⟩ := hSlot
    refine .earlier (.method hList) fun comments => ?_
    rw [hMember]
    exact hReads.bind (.pure _)
  · exact memberPlaces_listed hMember (fun _ hAdded => hAdded.of_concat)
      (fun _ _ hMethod hOwn => partPlaces_method hFirst hSeen hLevel hMethod hDepth hOwn)
      (traced_rpcRest []) hRun hDepth hSlot
  · rw [hMember] at hRun
    cases hRun

/-! ## Fields -/

theorem fieldHead_comments (comments : List String) (first : Token) :
    fieldHead comments first =
      fieldHead [] first >>= fun head =>
        pure { head with comments := comments ++ head.comments } := by
  unfold fieldHead ruledHead
  split <;> simp only [bind_assoc, pure_bind, List.append_nil, List.nil_append]

/-- The comments of a field begin with those that its parser is given. -/
theorem fieldRest_comments (comments : List String) (first : Token) :
    fieldRest comments first =
      fieldRest [] first >>= fun field =>
        pure { field with comments := comments ++ field.comments } := by
  rw [fieldRest, fieldHead_comments]
  simp only [fieldRest, bind_assoc, pure_bind]

/-- A field is in no group when it is read. -/
theorem fieldRest_ungrouped (comments : List String) (first : Token) :
    (fieldRest comments first >>= fun field => pure { field with oneof := none }) =
      fieldRest comments first := by
  simp only [fieldRest, bind_assoc, pure_bind]

theorem detached_fieldRest (comments : List String) (first : Token) :
    Detached (fieldRest comments first) where
  traced _ hSeen := traced_fieldRest hSeen comments first
  closed _ hSeen := .of_settled (settled_fieldRest hSeen comments first)
  looksAhead _ := looksAhead_fieldRest comments first

/-- A field has no comments of its own where none are ahead. -/
theorem comments_of_run_fieldHead {head : FieldHead}
    (hPlain : ∀ token ∈ start.rest, token.isComment = false)
    (hRun : (fieldHead [] first).run start = .ok head after) : head.comments = [] := by
  have hRuled : ∀ required repeated, (ruledHead [] required repeated).run start = .ok head after →
      head.comments = [] := by
    intro required repeated hRun
    obtain ⟨more, between, hMore, hRest⟩ := run_bind_eq_ok_iff.mp hRun
    rw [run_takeComments_plain hPlain] at hMore
    cases hMore
    obtain ⟨type, last, -, hDone⟩ := run_bind_eq_ok_iff.mp hRest
    cases hDone
    rfl
  unfold fieldHead at hRun
  split at hRun
  · obtain ⟨type, last, -, hDone⟩ := run_bind_eq_ok_iff.mp hRun
    cases hDone
    rfl
  · exact hRuled _ _ hRun
  · exact hRuled _ _ hRun
  · exact hRuled _ _ hRun
  · obtain ⟨type, last, -, hDone⟩ := run_bind_eq_ok_iff.mp hRun
    cases hDone
    rfl

/-- Outside of a group and without comments, a field has neither. -/
theorem bare_of_run_fieldRest {field : Field}
    (hPlain : ∀ token ∈ start.rest, token.isComment = false)
    (hRun : (fieldRest [] first).run start = .ok field after) :
    field.comments = [] ∧ field.oneof = none := by
  obtain ⟨head, _, hHead, hRun⟩ := run_bind_eq_ok_iff.mp hRun
  obtain ⟨name, _, -, hRun⟩ := run_bind_eq_ok_iff.mp hRun
  obtain ⟨_, _, -, hRun⟩ := run_bind_eq_ok_iff.mp hRun
  obtain ⟨literal, _, -, hRun⟩ := run_bind_eq_ok_iff.mp hRun
  obtain ⟨tag, _, -, hRun⟩ := run_bind_eq_ok_iff.mp hRun
  obtain ⟨options, _, -, hRun⟩ := run_bind_eq_ok_iff.mp hRun
  obtain ⟨_, _, -, hDone⟩ := run_bind_eq_ok_iff.mp hRun
  cases hDone
  exact ⟨comments_of_run_fieldHead hPlain hHead, rfl⟩

/-- A field that is read without comments is read with any. -/
theorem readsAt_fieldRest {field : Field} (hSeen : start.seen ≠ [])
    (hPlain : ∀ token ∈ start.rest, token.isComment = false)
    (hRun : (fieldRest [] first).run start = .ok field after) (hDepth : after.depth = start.depth)
    (comments : List String) :
    (fieldRest comments first).ReadsAt start.depth start.limit start.rest
      { field with comments := comments } after.rest := by
  have hReads : (fieldRest [] first).ReadsAt start.depth start.limit start.rest field after.rest :=
    .of_run (traced_fieldRest hSeen [] first) hRun hDepth
  rw [fieldRest_comments]
  refine hReads.bind ?_
  rw [(bare_of_run_fieldRest hPlain hRun).1, List.append_nil]
  exact .pure _

theorem opens_field {field : Field} (hSeen : start.seen ≠ []) (hLevel : start.depth ≤ start.limit)
    (hPlain : ∀ token ∈ start.rest, token.isComment = false)
    (hRun : (fieldRest [] first).run start = .ok field after) (hDepth : after.depth = start.depth)
    (group : Option String) :
    (Declaration.field { field with oneof := group }).Opens start.limit (first :: start.rest) := by
  obtain ⟨used, hUsed, hAlone⟩ := (detached_fieldRest [] first).exists_alone hSeen hRun hDepth
  have hField : { field with oneof := none } = field := by
    rw [← (bare_of_run_fieldRest hPlain hRun).2]
  refine ⟨first :: used, after.rest, start.depth, congrArg (first :: ·) hUsed, ?_⟩
  show Grammar.field.ReadsAt _ _ _ { field with oneof := none } []
  rw [hField]
  exact ((reads_next first _ _).here hLevel).bind hAlone

theorem partPlaces_field {group : Option String} {field : Field} {family : List String → Field}
    (hSeen : start.seen ≠ []) (hPlain : ∀ token ∈ start.rest, token.isComment = false)
    (hLevel : start.depth ≤ start.limit)
    (hRun : (fieldRest [] first >>= fun field => pure { field with oneof := group }).run start =
      .ok field after)
    (hDepth : after.depth = start.depth) (hSlot : field.Slot target family) :
    PartPlaces (fun comments => fieldRest comments first >>= fun field =>
      pure { field with oneof := group }) start.depth start.limit first start.rest target family
        after.rest := by
  obtain ⟨bare, rfl, hBare, -⟩ := exists_of_run_build (traced_fieldRest hSeen [] first) hRun hDepth
  cases hSlot
  refine .own (opens_field hSeen hLevel hPlain hBare hDepth group) fun comments => ?_
  exact (readsAt_fieldRest hSeen hPlain hBare hDepth comments).bind (.pure _)

/-- What can begin in a group with a token. -/
theorem oneofMember_cases (first : Token) :
    (∀ group fields comments, oneofMember group fields (comments, first) = pure fields) ∨
      (∀ group fields comments, oneofMember group fields (comments, first) =
        fieldRest comments first >>= fun field =>
          pure (fields ++ [{ field with oneof := some group }])) ∨
      ∀ group fields comments, oneofMember group fields (comments, first) =
        rejectLast "oneof" := by
  by_cases hEmpty : first = ";"
  · exact .inl fun _ _ _ => if_pos hEmpty
  · simp only [oneofMember, if_neg hEmpty]
    split
    · exact .inr (.inr fun _ _ _ => rfl)
    · exact .inr (.inr fun _ _ _ => rfl)
    · exact .inr (.inr fun _ _ _ => rfl)
    · exact .inr (.inr fun _ _ _ => rfl)
    · exact .inr (.inl fun _ _ _ => rfl)

theorem memberPlaces_oneofMember {group : String} {fields grown : List Field}
    {family : List String → List Field} (hSeen : start.seen ≠ [])
    (hPlain : ∀ token ∈ start.rest, token.isComment = false) (hLevel : start.depth ≤ start.limit)
    (hRun : (oneofMember group fields ([], first)).run start = .ok grown after)
    (hDepth : after.depth = start.depth) (hSlot : ListSlot Field.Slot grown target family) :
    MemberPlaces (ListSlot Field.Slot) (oneofMember group) start.depth start.limit fields first
      start.rest target family after.rest := by
  rcases oneofMember_cases first with hMember | hMember | hMember
  · exact memberPlaces_pure (hMember group) hRun hSlot
  · have hItem : ∀ other comments, oneofMember group other (comments, first) =
        (fieldRest comments first >>= fun field => pure { field with oneof := some group }) >>=
          fun field => pure (other ++ [field]) := by
      intro other comments
      rw [hMember, bind_assoc]
      simp only [pure_bind]
    exact memberPlaces_listed hItem (fun _ hSlot => hSlot.of_concat)
      (fun _ _ hField hOwn => partPlaces_field hSeen hPlain hLevel hField hDepth hOwn)
      (.bind (traced_fieldRest hSeen [] first) fun field _ _ => .pure _) hRun hDepth hSlot
  · rw [hMember] at hRun
    cases hRun

end Grammar
end ProtoIdl
