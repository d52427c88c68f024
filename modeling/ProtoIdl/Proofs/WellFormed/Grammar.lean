import ProtoIdl.Grammar.File
import ProtoIdl.Proofs.Parser.MessageLoop
import ProtoIdl.Proofs.Parser.Yields
import ProtoIdl.Proofs.WellFormed.Schema

/-!
# The grammar answers well-formed trees

Every parser of the grammar answers a well-formed tree, or adds to a tree that is well
formed without making it ill formed.
-/

namespace ProtoIdl
namespace Grammar

open ProtoIdl.Parser

variable {cursor : Cursor}

/-! ## Options -/

theorem wellFormed_ofLiteral (literal : Token) : (OptionValue.ofLiteral literal).WellFormed := by
  unfold OptionValue.ofLiteral
  split
  · exact .bool true
  · split
    · exact .bool false
    · exact .text _

theorem ofLiteral_ne_list (literal : Token) (blocks : List OptionMap) :
    OptionValue.ofLiteral literal ≠ .list blocks := by
  unfold OptionValue.ofLiteral
  split
  · exact nofun
  · split <;> exact nofun

/-- A nested map keeps the map around it well formed, in either form. -/
theorem valuesWellFormed_store {form : NestedForm} {options inner grown : OptionMap}
    {key : String} (hOptions : options.ValuesWellFormed) (hInner : inner.ValuesWellFormed)
    (hStore : form.store options key inner = .ok grown) : grown.ValuesWellFormed := by
  cases form with
  | value => exact hOptions.bind (.map hInner) hStore
  | block => exact hOptions.pushBlock hInner hStore

theorem yields_optionMap_of_entries (hEntries : ∀ entered, cursor.Onward entered →
      Yields (entries ∅) OptionMap.ValuesWellFormed entered) :
    Yields optionMap OptionMap.ValuesWellFormed cursor := by
  refine .after fun _ entered hEnter => ?_
  have hInside := hEntries entered (onward_of_ok hEnter)
  refine hInside.bind fun inner afterInner _ hInner => ?_
  refine .after fun _ afterLeave _ => ?_
  exact .pure hInner

/-- The entries of an option map, nested maps included. -/
theorem yields_entries {options : OptionMap} (hOptions : options.ValuesWellFormed)
    (cursor : Cursor) : Yields (entries options) OptionMap.ValuesWellFormed cursor := by
  induction options, cursor using entries_induction with
  | entry options cursor ih =>
      rw [entries_eq]
      refine .bind (yields_mapEntry options) fun entry between hEntry hLiteral => ?_
      have hLater := ih entry between hEntry
      cases entry with
      | close => exact .pure hOptions
      | separator => exact hLater options between (.refl between) hOptions
      | literal key value =>
          obtain ⟨literal, rfl⟩ := hLiteral
          refine .bind (.ofExcept fun grown => hOptions.bind (wellFormed_ofLiteral literal)) ?_
          exact fun grown after hRun => hLater grown after (onward_of_ok hRun)
      | nested form key =>
          have hInner : Yields optionMap OptionMap.ValuesWellFormed between :=
            yields_optionMap_of_entries fun entered hEntered =>
              hLater ∅ entered hEntered OptionMap.valuesWellFormed_empty
          refine hInner.bind fun inner afterInner hRun hInner => ?_
          refine .bind (.ofExcept fun grown => valuesWellFormed_store hOptions hInner) ?_
          exact fun grown after hStore =>
            hLater grown after ((onward_of_ok hRun).trans (onward_of_ok hStore))

theorem yields_optionMap : Yields optionMap OptionMap.ValuesWellFormed cursor :=
  yields_optionMap_of_entries fun entered _ =>
    yields_entries OptionMap.valuesWellFormed_empty entered

/-- What is admitted for `optimize_for` is one of its goals. -/
theorem goal_of_admitsValue {name : String} {value : OptionValue}
    (hAdmits : admitsValue name value = true) (hName : name = "optimize_for") :
    ∃ goal ∈ ["SPEED", "CODE_SIZE", "LITE_RUNTIME"], value = .text goal := by
  subst hName
  cases value with
  | text goal =>
      exact ⟨goal, by simpa [admitsValue, OptionValue.asText?, optimizeGoals] using hAdmits, rfl⟩
  | bool | map | list => simp [admitsValue, OptionValue.asText?] at hAdmits

theorem yields_valueFrom (name context : String) (first : Token) :
    Yields (valueFrom name context first) (fun value => value.BoundTo name) cursor := by
  have hAdmitted : ∀ (value : OptionValue) (later : Cursor), value.WellFormed →
      (∀ blocks, value ≠ .list blocks) →
      Yields (if admitsValue name value then pure value else fail (.invalidOptimizeFor first))
        (fun value => value.BoundTo name) later := by
    intro value later hValue hSingle
    split
    · next hAdmits => exact .pure ⟨hValue, hSingle, goal_of_admitsValue hAdmits⟩
    · exact .fail _
  unfold valueFrom
  dsimp only
  split
  · have hMap : Yields (OptionValue.map <$> optionMap)
        (fun value => value.WellFormed ∧ ∀ blocks, value ≠ .list blocks) cursor := by
      rw [map_eq_pure_bind]
      exact yields_optionMap.bind fun inner afterInner _ hInner => .pure ⟨.map hInner, nofun⟩
    exact hMap.bind fun value later _ hValue => hAdmitted value later hValue.1 hValue.2
  · split
    · exact .after fun value later hRun => nomatch hRun
    · exact hAdmitted _ cursor (wellFormed_ofLiteral first) (ofLiteral_ne_list first)

theorem yields_optionBinding (context : String) :
    Yields (optionBinding context) (fun binding => binding.2.BoundTo binding.1) cursor := by
  refine .after fun name afterName _ => ?_
  refine .after fun _ afterEquals _ => ?_
  have hValue : Yields (optionValue name context) (fun value => value.BoundTo name)
      afterEquals := .after fun first _ _ => yields_valueFrom name context first
  refine hValue.bind fun value afterValue _ hBound => ?_
  exact .pure hBound

theorem yields_bindOptionRest {options : OptionMap} (hOptions : options.WellFormed) :
    Yields (bindOptionRest options) OptionMap.WellFormed cursor := by
  have hBinding : Yields optionRest (fun binding => binding.2.BoundTo binding.1) cursor := by
    refine (yields_optionBinding "option").bind fun binding afterBinding _ hBound => ?_
    refine .after fun _ afterEnd _ => ?_
    exact .pure hBound
  refine hBinding.bind fun binding afterBinding _ hBound => ?_
  exact .ofExcept fun grown => hOptions.bind hBound

theorem yields_fieldOption {options : OptionMap} (hOptions : options.WellFormed) :
    Yields (fieldOption options) OptionMap.WellFormed cursor := by
  refine .after fun _ afterComments _ => ?_
  refine (yields_optionBinding _).bind fun binding afterBinding _ hBound => ?_
  refine .bind (.ofExcept fun grown => hOptions.bind hBound) fun grown afterStore _ hGrown => ?_
  refine .after fun _ afterLast _ => ?_
  exact .pure hGrown

theorem yields_optionalFieldOptions :
    Yields optionalFieldOptions OptionMap.WellFormed cursor := by
  refine .after fun ahead start _ => ?_
  split
  · refine .after fun _ afterOpen _ => ?_
    exact .commaList (fun options _ => yields_fieldOption) _ _ OptionMap.wellFormed_empty
  · exact .pure OptionMap.wellFormed_empty

/-! ## Enums -/

theorem yields_enumValueRest (comments : List String) (first : Token) :
    Yields (enumValueRest comments first) (fun value => value.options.WellFormed) cursor := by
  refine .after fun _ afterShape _ => ?_
  refine .after fun name afterName _ => ?_
  refine .after fun _ afterEquals _ => ?_
  refine .after fun literal afterLiteral _ => ?_
  refine .after fun number afterNumber _ => ?_
  refine yields_optionalFieldOptions.bind fun options afterOptions _ hOptions => ?_
  refine .after fun _ afterEnd _ => ?_
  exact .pure hOptions

/-- A value that is added has a name of its own. -/
theorem wellFormed_addEnumValue {decl grown : EnumDecl} {value : EnumValue}
    (hDecl : decl.WellFormed) (hValue : value.options.WellFormed)
    (hAdd : addEnumValue decl value = .ok grown) : grown.WellFormed := by
  unfold addEnumValue at hAdd
  split at hAdd
  · cases hAdd
  · next hNew =>
      cases hAdd
      refine ⟨?_, forall_mem_concat hDecl.values hValue, hDecl.options⟩
      have hOther : ∀ other ∈ decl.values, other.name ≠ value.name := by
        simpa [EnumDecl.value?, List.find?_isSome] using hNew
      rw [List.map_append, List.nodup_append]
      refine ⟨hDecl.names, by simp, ?_⟩
      intro name hName last hLast
      obtain ⟨other, hMem, rfl⟩ := List.mem_map.mp hName
      rw [List.mem_singleton.mp hLast]
      exact hOther other hMem

theorem yields_enumMember {decl : EnumDecl} (hDecl : decl.WellFormed)
    (head : List String × Token) : Yields (enumMember decl head) EnumDecl.WellFormed cursor := by
  unfold enumMember
  split
  · exact .pure hDecl
  · split
    · refine (yields_bindOptionRest hDecl.options).bind fun options afterOptions _ hOptions => ?_
      exact .pure ⟨hDecl.names, hDecl.values, hOptions⟩
    · refine .after fun reserved afterReserved _ => ?_
      exact .pure ⟨hDecl.names, hDecl.values, hDecl.options⟩
    · refine (yields_enumValueRest _ _).bind fun value afterValue _ hValue => ?_
      exact .ofExcept fun grown => wellFormed_addEnumValue hDecl hValue

theorem yields_enumRest : Yields enumRest EnumDecl.WellFormed cursor := by
  refine .after fun name afterName _ => ?_
  refine .after fun _ afterBrace _ => ?_
  have hNew : (EnumDecl.new name).WellFormed :=
    ⟨List.nodup_nil, by rintro _ ⟨⟩, OptionMap.wellFormed_empty⟩
  have hMembers : Yields (loop (memberHead "enum") enumMember (.new name)) EnumDecl.WellFormed
      afterBrace := .loop (fun decl head _ _ hDecl => yields_enumMember hDecl head) hNew
  refine hMembers.bind fun decl afterDecl _ hDecl => ?_
  refine .after fun _ afterSemicolon _ => ?_
  exact .pure hDecl

/-! ## Fields -/

theorem wellFormed_ofName (name : String) : (FieldType.ofName name).WellFormed := by
  unfold FieldType.ofName
  split
  · next hScalar => exact List.contains_iff_mem.mp hScalar
  · next hOther => exact fun hMem => hOther (List.contains_iff_mem.mpr hMem)

theorem notMap_ofName (name : String) : (FieldType.ofName name).NotMap := by
  intro key value
  unfold FieldType.ofName
  split <;> exact nofun

/-- What stands before the name of a well-formed field. -/
structure FieldHead.WellFormed (head : FieldHead) : Prop where
  type : head.type.WellFormed
  rule : ¬(head.required = true ∧ head.repeated = true)
  map : ∀ key value, head.type = .map key value → head.required = false ∧ head.repeated = false

/-- What stands before the name of a member of a group: neither a rule nor a map type. -/
structure FieldHead.Plain (head : FieldHead) : Prop where
  required : head.required = false
  repeated : head.repeated = false
  type : head.type.NotMap

theorem yields_mapTypeRest : Yields mapTypeRest FieldType.WellFormed cursor := by
  refine .after fun _ afterOpen _ => ?_
  refine .after fun key afterKey _ => ?_
  refine .after fun _ afterComma _ => ?_
  refine .after fun value afterValue _ => ?_
  refine .after fun _ afterClose _ => ?_
  exact .pure trivial

theorem yields_fieldHead (comments : List String) (first : Token) :
    Yields (fieldHead comments first) FieldHead.WellFormed cursor := by
  have hNamed : ∀ (name : String) (required repeated : Bool) (all : List String),
      ¬(required = true ∧ repeated = true) →
        FieldHead.WellFormed ⟨.ofName name, required, repeated, all⟩ :=
    fun name _ _ _ hRule =>
      ⟨wellFormed_ofName name, hRule,
        fun key value hMap => absurd hMap (notMap_ofName name key value)⟩
  have hRuled : ∀ required repeated, ¬(required = true ∧ repeated = true) →
      Yields (ruledHead comments required repeated) FieldHead.WellFormed cursor := by
    intro required repeated hRule
    refine .after fun more afterComments _ => ?_
    refine .after fun type afterType _ => ?_
    exact .pure (hNamed type required repeated (comments ++ more) hRule)
  unfold fieldHead
  split
  · refine yields_mapTypeRest.bind fun type afterType _ hType => ?_
    exact .pure ⟨hType, nofun, fun _ _ _ => ⟨rfl, rfl⟩⟩
  · exact hRuled false true nofun
  · exact hRuled true false nofun
  · exact hRuled false false nofun
  · refine .after fun type afterType _ => ?_
    exact .pure (hNamed type _ _ _ nofun)

/-- A field that starts with neither a rule nor a map type has neither. -/
theorem yields_fieldHead_plain (comments : List String) {first : Token}
    (hRequired : Keyword.ofToken? first ≠ some .required)
    (hRepeated : Keyword.ofToken? first ≠ some .repeated)
    (hMap : Keyword.ofToken? first ≠ some .map) :
    Yields (fieldHead comments first) FieldHead.Plain cursor := by
  unfold fieldHead
  split
  · -- the keywords of a map type and of the two rules are excluded
    next hFirst => exact absurd hFirst hMap
  · next hFirst => exact absurd hFirst hRepeated
  · next hFirst => exact absurd hFirst hRequired
  · refine .after fun _ afterComments _ => ?_
    refine .after fun type afterType _ => ?_
    exact .pure ⟨rfl, rfl, notMap_ofName type⟩
  · refine .after fun type afterType _ => ?_
    exact .pure ⟨rfl, rfl, notMap_ofName type⟩

/-- A field has the type and the rule that stand before its name, no group, and well-formed
options. -/
theorem yields_fieldRest_of_head {comments : List String} {first : Token}
    {holds : FieldHead → Prop} (hHead : Yields (fieldHead comments first) holds cursor) :
    Yields (fieldRest comments first) (fun field =>
      holds ⟨field.type, field.required, field.repeated, field.comments⟩ ∧
        field.oneof = none ∧ field.options.WellFormed) cursor := by
  refine hHead.bind fun head afterHead _ hHolds => ?_
  refine .after fun name afterName _ => ?_
  refine .after fun _ afterEquals _ => ?_
  refine .after fun literal afterLiteral _ => ?_
  refine .after fun tag afterTag _ => ?_
  refine yields_optionalFieldOptions.bind fun options afterOptions _ hOptions => ?_
  refine .after fun _ afterEnd _ => ?_
  exact .pure ⟨hHolds, rfl, hOptions⟩

theorem yields_fieldRest (comments : List String) (first : Token) :
    Yields (fieldRest comments first) Field.WellFormed cursor := by
  intro field after hRun
  obtain ⟨hHead, hGroup, hOptions⟩ :=
    yields_fieldRest_of_head (yields_fieldHead comments first) field after hRun
  refine ⟨hHead.type, hHead.rule, ?_, ?_, hOptions⟩
  · intro key value hMap
    obtain ⟨hRequired, hRepeated⟩ := hHead.map key value hMap
    exact ⟨hRequired, hRepeated, hGroup⟩
  · intro group hSome
    rw [hGroup] at hSome
    cases hSome

theorem yields_oneofMember (group : String) {fields : List Field}
    (hFields : ∀ field ∈ fields, field.WellFormed) (head : List String × Token) :
    Yields (oneofMember group fields head) (fun fields => ∀ field ∈ fields, field.WellFormed)
      cursor := by
  unfold oneofMember
  split
  · exact .pure hFields
  · split
    · exact .rejectLast _
    · exact .rejectLast _
    · exact .rejectLast _
    · exact .rejectLast _
    · next hRepeated hRequired hMap _ =>
        -- the group is set on a field that is read as one outside a group
        have hField : Yields (fieldRest head.1 head.2) (fun field => field.WellFormed ∧
            FieldHead.Plain ⟨field.type, field.required, field.repeated, field.comments⟩)
            cursor := fun field after hRun =>
          ⟨yields_fieldRest _ _ field after hRun,
            (yields_fieldRest_of_head (yields_fieldHead_plain _ hRequired hRepeated hMap) field
              after hRun).1⟩
        refine hField.bind fun field afterField _ hHolds => ?_
        refine .pure (forall_mem_concat hFields ?_)
        obtain ⟨hField, hPlain⟩ := hHolds
        exact ⟨hField.type, hField.rule,
          fun key value hSame => absurd hSame (hPlain.type key value),
          fun _ _ => ⟨hPlain.required, hPlain.repeated, hPlain.type⟩, hField.options⟩

theorem yields_oneofRest {fields : List Field} (hFields : ∀ field ∈ fields, field.WellFormed) :
    Yields (oneofRest fields) (fun fields => ∀ field ∈ fields, field.WellFormed) cursor := by
  refine .after fun group afterGroup _ => ?_
  refine .after fun _ afterBrace _ => ?_
  exact .loop (fun fields head _ _ hFields => yields_oneofMember group hFields head) hFields

/-! ## Messages -/

/-- The message is well formed and has the name. -/
def IsMessageNamed (name : String) (message : Message) : Prop :=
  message.WellFormed ∧ message.name = name

theorem yields_messageMember {name : String} {message : Message}
    (hMessage : IsMessageNamed name message) (head : List String × Token) :
    Yields (messageMember message head) (IsMessageNamed name) cursor := by
  obtain ⟨hWhole, hName⟩ := hMessage
  obtain ⟨hMembers, hMessages, hBlocks⟩ := hWhole.parts
  unfold messageMember
  split
  · exact .pure ⟨hWhole, hName⟩
  · split
    · refine yields_enumRest.bind fun decl afterDecl _ hDecl => ?_
      refine .pure ⟨.mk ?_ hMessages hBlocks, hName⟩
      have hCommented : { decl with comments := head.1 }.WellFormed :=
        ⟨hDecl.names, hDecl.values, hDecl.options⟩
      exact ⟨hMembers.fields, forall_mem_concat hMembers.enums hCommented, hMembers.options⟩
    · refine .after fun ranges afterRanges _ => ?_
      exact .pure ⟨.mk ⟨hMembers.fields, hMembers.enums, hMembers.options⟩ hMessages hBlocks, hName⟩
    · refine .after fun reserved afterReserved _ => ?_
      exact .pure ⟨.mk ⟨hMembers.fields, hMembers.enums, hMembers.options⟩ hMessages hBlocks, hName⟩
    · refine (yields_oneofRest hMembers.fields).bind fun fields afterFields _ hFields => ?_
      exact .pure ⟨.mk ⟨hFields, hMembers.enums, hMembers.options⟩ hMessages hBlocks, hName⟩
    · refine (yields_bindOptionRest hMembers.options).bind fun options afterOptions _ hOptions => ?_
      exact .pure ⟨.mk ⟨hMembers.fields, hMembers.enums, hOptions⟩ hMessages hBlocks, hName⟩
    · refine (yields_fieldRest _ _).bind fun field afterField _ hField => ?_
      have hFields := forall_mem_concat hMembers.fields hField
      exact .pure ⟨.mk ⟨hFields, hMembers.enums, hMembers.options⟩ hMessages hBlocks, hName⟩

/-- What a block adds to the message around it is well formed if its inside is. -/
theorem isMessageNamed_addBlock {name : String} {message : Message}
    (hMessage : IsMessageNamed name message) (kind : BlockKind) (comments : List String)
    {target : String} {inner : Message} (hInner : IsMessageNamed target inner) :
    IsMessageNamed name (addBlock message kind comments target inner) := by
  obtain ⟨hWhole, hName⟩ := hMessage
  obtain ⟨hMembers, hMessages, hBlocks⟩ := hWhole.parts
  cases kind with
  | message =>
      have hGrown := forall_mem_concat hMessages (hInner.1.withComments comments)
      exact ⟨.mk ⟨hMembers.fields, hMembers.enums, hMembers.options⟩ hGrown hBlocks, hName⟩
  | extend =>
      have hBlock : ExtendBlock.WellFormed ⟨target, inner⟩ := ⟨hInner.2, hInner.1⟩
      exact ⟨.mk ⟨hMembers.fields, hMembers.enums, hMembers.options⟩ hMessages
        (forall_mem_concat hBlocks hBlock), hName⟩

theorem yields_block (kind : BlockKind) {body : String → Parser α} {holds : String → α → Prop}
    (hBody : ∀ name (entered : Cursor), entered.left < cursor.left →
      Yields (body name) (holds name) entered) :
    Yields (block kind body) (fun named => holds named.1 named.2) cursor := by
  refine .after fun name afterName hName => ?_
  refine .after fun _ afterBrace hBrace => ?_
  have hAhead := ((onward_of_ok hName).trans (onward_of_ok hBrace)).left_le
  have hInside : Yields (inside "message" (body name)) (holds name) afterBrace :=
    .inside fun entered hShorter => hBody name entered (by omega)
  refine hInside.bind fun inner afterInner _ hInner => ?_
  exact .pure hInner

/-- The members of a message, nested blocks included. -/
theorem yields_members {name : String} {message : Message}
    (hMessage : IsMessageNamed name message) (cursor : Cursor) :
    Yields (members message) (IsMessageNamed name) cursor := by
  induction hLeft : cursor.left using Nat.strongRecOn generalizing name message cursor with
  | ind left ih =>
      rw [members_eq_loop]
      refine .loop (fun message head start hStart hMessage => ?_) hMessage
      unfold messageStatement
      split
      · exact yields_messageMember hMessage head
      · next kind _ =>
          have hBlock : Yields (block kind fun name => members (.new name))
              (fun named => IsMessageNamed named.1 named.2) start :=
            yields_block kind fun name entered hShorter =>
              ih entered.left (by omega) ⟨Message.wellFormed_new name, rfl⟩ entered rfl
          refine hBlock.bind fun named afterNamed _ hNamed => ?_
          exact .pure (isMessageNamed_addBlock hMessage kind head.1 hNamed)

theorem yields_messageBlock (kind : BlockKind) :
    Yields (block kind fun name => members (.new name))
      (fun named => IsMessageNamed named.1 named.2) cursor :=
  yields_block kind fun name entered _ => yields_members ⟨Message.wellFormed_new name, rfl⟩ entered

theorem yields_messageRest : Yields messageRest Message.WellFormed cursor := by
  refine (yields_messageBlock .message).bind fun named afterNamed _ hNamed => ?_
  exact .pure hNamed.1

theorem yields_extendRest : Yields extendRest ExtendBlock.WellFormed cursor := by
  refine (yields_messageBlock .extend).bind fun named afterNamed _ hNamed => ?_
  exact .pure ⟨hNamed.2, hNamed.1⟩

/-! ## Services -/

/-- A repeated type is not a map. -/
theorem yields_rpcType (context : String) :
    Yields (rpcType context)
      (fun typed => typed.1.WellFormed ∧ (typed.2 = true → typed.1.NotMap)) cursor := by
  refine .after fun isMap afterMap _ => ?_
  split
  · refine yields_mapTypeRest.bind fun type afterType _ hType => ?_
    exact .pure ⟨hType, nofun⟩
  · refine .after fun repeated afterRepeated _ => ?_
    refine .after fun type afterType _ => ?_
    exact .pure ⟨wellFormed_ofName type, fun _ => notMap_ofName type⟩

/-- Parameters that are well formed, at least one of them if one is marked as a stream. -/
structure RpcInputs.WellFormed (inputs : RpcInputs) : Prop where
  arguments : ∀ argument ∈ inputs.arguments, argument.WellFormed
  streamed : inputs.streaming = true → inputs.arguments ≠ []

theorem yields_rpcParameter {inputs : RpcInputs} (hInputs : inputs.WellFormed) :
    Yields (rpcParameter inputs) RpcInputs.WellFormed cursor := by
  refine .after fun _ afterComments _ => ?_
  refine .after fun stream afterStream _ => ?_
  refine (yields_rpcType _).bind fun typed afterTyped _ hTyped => ?_
  refine .after fun _ afterTypeComments _ => ?_
  -- a stream marks the parameter that it stands before, so there is one
  refine .after fun name afterName _ => ?_
  refine .after fun _ afterLast _ => ?_
  refine .pure ⟨?_, by simp⟩
  exact forall_mem_concat hInputs.arguments ⟨hTyped.1, hTyped.2⟩

theorem yields_rpcParameters : Yields rpcParameters RpcInputs.WellFormed cursor := by
  have hNone : RpcInputs.WellFormed ⟨false, []⟩ := ⟨by rintro _ ⟨⟩, nofun⟩
  refine .after fun _ afterComments _ => ?_
  refine .after fun closed afterClosed _ => ?_
  split
  · exact .pure hNone
  · exact .commaList (fun inputs _ => yields_rpcParameter) _ _ hNone

theorem yields_rpcEnd : Yields rpcEnd OptionMap.WellFormed cursor := by
  have hMember : ∀ options (head : List String × Token) start, OptionMap.WellFormed options →
      Yields (rpcBodyMember options head) OptionMap.WellFormed start := by
    intro options head start hOptions
    unfold rpcBodyMember
    split
    · exact .pure hOptions
    · split
      · exact yields_bindOptionRest hOptions
      · exact .rejectLast _
  refine .after fun closed afterClosed _ => ?_
  split
  · exact .pure OptionMap.wellFormed_empty
  · refine .after fun _ afterBrace _ => ?_
    have hOptions : Yields (loop (memberHead "rpc") rpcBodyMember ∅) OptionMap.WellFormed
        afterBrace :=
      .loop (fun options head start _ => hMember options head start) OptionMap.wellFormed_empty
    refine hOptions.bind fun options afterOptions _ hOptions => ?_
    refine .after fun _ afterSemicolon _ => ?_
    exact .pure hOptions

theorem yields_rpcRest (comments : List String) :
    Yields (rpcRest comments) RpcMethod.WellFormed cursor := by
  refine .after fun name afterName _ => ?_
  refine .after fun _ afterOpen _ => ?_
  refine yields_rpcParameters.bind fun inputs afterInputs _ hInputs => ?_
  refine .after fun _ afterReturns _ => ?_
  refine .after fun _ afterParen _ => ?_
  refine .after fun stream afterStream _ => ?_
  refine (yields_rpcType _).bind fun typed afterTyped _ hTyped => ?_
  refine .after fun _ afterClose _ => ?_
  refine yields_rpcEnd.bind fun options afterOptions _ hOptions => ?_
  exact .pure ⟨hInputs.arguments, hInputs.streamed, ⟨hTyped.1, hTyped.2⟩, rfl, hOptions⟩

theorem yields_serviceMember {service : Service} (hService : service.WellFormed)
    (head : List String × Token) :
    Yields (serviceMember service head) Service.WellFormed cursor := by
  have hMethod : Yields (rpcRest head.1 >>= fun method =>
      pure { service with methods := service.methods ++ [method] }) Service.WellFormed cursor := by
    refine (yields_rpcRest _).bind fun method afterMethod _ hMethod => ?_
    exact .pure ⟨forall_mem_concat hService.methods hMethod, hService.options⟩
  unfold serviceMember
  split
  · exact .pure hService
  · split
    · refine (yields_bindOptionRest hService.options).bind fun options afterOptions _ hOptions => ?_
      exact .pure ⟨hService.methods, hOptions⟩
    · exact hMethod
    · exact hMethod
    · exact .rejectLast _

theorem yields_serviceRest : Yields serviceRest Service.WellFormed cursor := by
  refine .after fun name afterName _ => ?_
  refine .after fun _ afterBrace _ => ?_
  have hNew : (Service.new name).WellFormed := ⟨by rintro _ ⟨⟩, OptionMap.wellFormed_empty⟩
  have hMembers : Yields (loop (memberHead "service") serviceMember (.new name))
      Service.WellFormed afterBrace :=
    .loop (fun service head _ _ hService => yields_serviceMember hService head) hNew
  refine hMembers.bind fun service afterService _ hService => ?_
  refine .after fun _ afterSemicolon _ => ?_
  exact .pure hService

/-! ## Files -/

theorem yields_declaration {schema : Schema} (hSchema : schema.WellFormed) (started : Bool)
    (comments : List String) (keyword : Option Keyword) :
    Yields (declaration schema started comments keyword) Schema.WellFormed cursor := by
  obtain ⟨hMessages, hEnums, hServices, hBlocks, hOptions⟩ := hSchema
  unfold declaration
  split
  · refine .after fun name afterName _ => ?_
    exact .pure ⟨hMessages, hEnums, hServices, hBlocks, hOptions⟩
  · split
    · exact .fail _
    · refine .after fun version afterVersion _ => ?_
      exact .pure ⟨hMessages, hEnums, hServices, hBlocks, hOptions⟩
  · refine yields_messageRest.bind fun decl afterDecl _ hDecl => ?_
    have hGrown := forall_mem_concat hMessages (hDecl.withComments comments)
    exact .pure ⟨hGrown, hEnums, hServices, hBlocks, hOptions⟩
  · refine yields_enumRest.bind fun decl afterDecl _ hDecl => ?_
    have hCommented : { decl with comments := comments }.WellFormed :=
      ⟨hDecl.names, hDecl.values, hDecl.options⟩
    exact .pure ⟨hMessages, forall_mem_concat hEnums hCommented, hServices, hBlocks, hOptions⟩
  · refine (yields_bindOptionRest hOptions).bind fun options afterOptions _ hGrown => ?_
    exact .pure ⟨hMessages, hEnums, hServices, hBlocks, hGrown⟩
  · refine .after fun entry afterEntry _ => ?_
    exact .pure ⟨hMessages, hEnums, hServices, hBlocks, hOptions⟩
  · refine yields_extendRest.bind fun block afterBlock _ hBlock => ?_
    exact .pure ⟨hMessages, hEnums, hServices, forall_mem_concat hBlocks hBlock, hOptions⟩
  · refine yields_serviceRest.bind fun decl afterDecl _ hDecl => ?_
    have hCommented : { decl with comments := comments }.WellFormed :=
      ⟨hDecl.methods, hDecl.options⟩
    exact .pure ⟨hMessages, hEnums, forall_mem_concat hServices hCommented, hBlocks, hOptions⟩
  · exact .rejectLast _

theorem yields_statement {state : FileState} (hState : state.schema.WellFormed)
    (head : List String × Token) :
    Yields (statement state head) (fun state => state.schema.WellFormed) cursor := by
  unfold statement
  split
  · exact .pure hState
  · refine .bind (yields_declaration ?_ _ _ _) fun grown _ _ hGrown => .pure hGrown
    split
    · exact hState
    · exact ⟨hState.messages, hState.enums, hState.services, hState.extendBlocks, hState.options⟩

/-- Whatever is read as a file is well formed. -/
theorem yields_file (version : LanguageVersion) :
    Yields (file version) Schema.WellFormed cursor := by
  have hNew : (Schema.new version).WellFormed :=
    ⟨by rintro _ ⟨⟩, by rintro _ ⟨⟩, by rintro _ ⟨⟩, by rintro _ ⟨⟩, OptionMap.wellFormed_empty⟩
  have hStatements : Yields (loop statementHead statement ⟨.new version, false⟩)
      (fun state => state.schema.WellFormed) cursor :=
    .loop (fun state head _ _ hState => yields_statement hState head) hNew
  refine hStatements.bind fun state afterState _ hState => ?_
  exact .pure hState

end Grammar
end ProtoIdl
