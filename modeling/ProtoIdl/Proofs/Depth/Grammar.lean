import ProtoIdl.Grammar.File
import ProtoIdl.Proofs.Depth.Option
import ProtoIdl.Proofs.Parser.MessageLoop

/-!
# The levels of the grammar

Every parser of the grammar is gauged by the nesting of the tree that it answers.  Only
option maps and the bodies of messages and `extend` blocks go down a level, and each of
them is kept in the tree, so a run needs just as many levels as its tree has.
-/

namespace ProtoIdl
namespace Grammar

open ProtoIdl.Parser

variable {cursor : Cursor}

/-! ## Numbers -/

theorem levelless_rangeEnd (interval : Numeral.Interval) (first max : Int)
    (expected context : String) : Levelless (rangeEnd interval first max expected context) := by
  refine .bind (.eat _) fun further => ?_
  split
  · refine .bind (.next _ _) fun literal => ?_
    split
    · exact .pure max
    · exact .numeral _ _ _
  · exact .pure first

theorem levelless_reservedEntry (max : Int) : Levelless (reservedEntry max) := by
  refine .bind (.next _ _) fun literal => ?_
  split
  · exact .pure _
  · refine .bind (.numeral _ _ _) fun first => ?_
    refine .bind (levelless_rangeEnd _ _ _ _ _) fun last => ?_
    exact .pure _

/-- A list of items without levels has none. -/
theorem gauged_commaList_of_levelless {item : σ → Parser σ}
    (hItem : ∀ state, Levelless (item state)) (close : Token) (context : String) (state : σ) :
    Gauged (commaList close context item state) 0 (fun _ => 0) cursor := by
  have hItem : ∀ state start, Gauged (item state) 0 (fun _ => 0) start :=
    fun state _ => .of_levelless (hItem state)
  exact .commaList hItem close context state

theorem gauged_extensionsRest (ranges : List ExtensionRange) :
    Gauged (extensionsRest ranges) 0 (fun _ => 0) cursor := by
  refine gauged_commaList_of_levelless (fun ranges => ?_) _ _ ranges
  have hRange : Levelless extensionRange := by
    refine .bind (.next _ _) fun literal => ?_
    refine .bind (.numeral _ _ _) fun first => ?_
    refine .bind (levelless_rangeEnd _ _ _ _ _) fun last => ?_
    exact .pure _
  exact .bind hRange fun range => .pure _

theorem gauged_reservedRest (max : Int) (reserved : List Reserved) :
    Gauged (reservedRest max reserved) 0 (fun _ => 0) cursor := by
  refine gauged_commaList_of_levelless (fun reserved => ?_) _ _ reserved
  exact .bind (levelless_reservedEntry max) fun entry => .pure _

/-! ## Enums -/

theorem levelless_enumValueShape : Levelless enumValueShape := by
  refine .bind (.peekNth 0) fun sign => ?_
  refine .bind (.peekNth 2) fun terminator => ?_
  cases terminator with
  | none => exact .rejectEnd _ _
  | some terminator =>
      dsimp only
      split
      · exact .rejectNth _ _
      · split
        · exact .rejectNth _ _
        · exact .pure ()

theorem gauged_enumValueRest (comments : List String) (first : Token) :
    Gauged (enumValueRest comments first) 0 (fun value => value.options.nesting) cursor := by
  refine .after_levelless levelless_enumValueShape fun _ afterShape _ => ?_
  refine .after_levelless (.checkWord _ _) fun name afterName _ => ?_
  refine .after_levelless (.expect _ _) fun _ afterEquals _ => ?_
  refine .after_levelless (.next _ _) fun literal afterLiteral _ => ?_
  refine .after_levelless (.numeral _ _ _) fun number afterNumber _ => ?_
  refine gauged_optionalFieldOptions.bind fun options afterOptions _ => ?_
  refine .after_levelless (.expect _ _) fun _ afterEnd _ => ?_
  exact .pure rfl

theorem nesting_of_addEnumValue {decl grown : EnumDecl} {value : EnumValue}
    (hAdd : addEnumValue decl value = .ok grown) :
    grown.nesting = max decl.nesting value.options.nesting := by
  unfold addEnumValue at hAdd
  split at hAdd
  · cases hAdd
  · cases hAdd
    rw [EnumDecl.nesting, deepest_concat, EnumDecl.nesting, Nat.max_assoc]

theorem gauged_enumMember (decl : EnumDecl) (head : List String × Token) :
    Gauged (enumMember decl head) decl.nesting EnumDecl.nesting cursor := by
  unfold enumMember
  split
  · exact .pure rfl
  · split
    · refine .read (gauged_bindOptionRest _) (Nat.le_max_left _ _) fun options hLe => ?_
      simp only [EnumDecl.nesting]
      omega
    · exact .read (gauged_reservedRest _ _) (Nat.zero_le _) fun _ _ => (Nat.max_zero _).symm
    · have hValue : Gauged (enumValueRest head.1 head.2) decl.nesting
          (fun value => max decl.nesting value.options.nesting) cursor :=
        (gauged_enumValueRest _ _).raise (Nat.zero_le _) fun _ _ => rfl
      exact hValue.bind fun value _ _ => .ofExcept fun grown => nesting_of_addEnumValue

theorem gauged_enumRest : Gauged enumRest 0 EnumDecl.nesting cursor := by
  refine .after_levelless (.word _ _) fun name afterName _ => ?_
  refine .after_levelless (.expect _ _) fun _ afterBrace _ => ?_
  have hMembers : ∀ start, Gauged (loop (memberHead "enum") enumMember (.new name)) 0
      EnumDecl.nesting start :=
    fun start => .loop (.memberHead _) (fun decl head _ _ => gauged_enumMember decl head) _
  refine (hMembers _).bind fun decl afterDecl _ => ?_
  refine .after_levelless (.eat _) fun _ afterSemicolon _ => ?_
  exact .pure rfl

/-! ## Fields -/

theorem levelless_mapTypeRest : Levelless mapTypeRest := by
  refine .bind (.expect _ _) fun _ => ?_
  refine .bind (.word _ _) fun key => ?_
  refine .bind (.expect _ _) fun _ => ?_
  refine .bind (.word _ _) fun value => ?_
  refine .bind (.expect _ _) fun _ => ?_
  exact .pure _

theorem levelless_fieldWord (slot : FieldSlot) : Levelless (fieldWord slot) := by
  refine .bind .peek fun ahead => ?_
  split
  · exact .fail _
  · exact .word _ _

theorem levelless_ruledHead (comments : List String) (required repeated : Bool) :
    Levelless (ruledHead comments required repeated) := by
  refine .bind .takeComments fun _ => ?_
  refine .bind (levelless_fieldWord _) fun type => ?_
  exact .pure _

theorem levelless_fieldHead (comments : List String) (first : Token) :
    Levelless (fieldHead comments first) := by
  unfold fieldHead
  split
  · exact .bind levelless_mapTypeRest fun type => .pure _
  · exact levelless_ruledHead _ _ _
  · exact levelless_ruledHead _ _ _
  · exact levelless_ruledHead _ _ _
  · exact .bind (.checkWord _ _) fun name => .pure _

theorem gauged_fieldRest (comments : List String) (first : Token) :
    Gauged (fieldRest comments first) 0 (fun field => field.options.nesting) cursor := by
  refine .after_levelless (levelless_fieldHead _ _) fun head afterHead _ => ?_
  refine .after_levelless (levelless_fieldWord _) fun name afterName _ => ?_
  refine .after_levelless (.expect _ _) fun _ afterEquals _ => ?_
  refine .after_levelless (.next _ _) fun literal afterLiteral _ => ?_
  refine .after_levelless (.numeral _ _ _) fun tag afterTag _ => ?_
  refine gauged_optionalFieldOptions.bind fun options afterOptions _ => ?_
  refine .after_levelless (.expect _ _) fun _ afterEnd _ => ?_
  exact .pure rfl

theorem gauged_oneofMember (group : String) (fields : List Field) (head : List String × Token) :
    Gauged (oneofMember group fields head) (deepest (fun field => field.options.nesting) fields)
      (deepest fun field => field.options.nesting) cursor := by
  unfold oneofMember
  split
  · exact .pure rfl
  · split
    · exact .rejectLast _
    · exact .rejectLast _
    · exact .rejectLast _
    · exact .rejectLast _
    · exact .read (gauged_fieldRest _ _) (Nat.zero_le _) fun field _ => deepest_concat _ _ _

theorem gauged_oneofRest (fields : List Field) :
    Gauged (oneofRest fields) (deepest (fun field => field.options.nesting) fields)
      (deepest fun field => field.options.nesting) cursor := by
  refine .after_levelless (.word _ _) fun group afterGroup _ => ?_
  refine .after_levelless (.expect _ _) fun _ afterBrace _ => ?_
  exact .loop (.memberHead _) (fun fields head _ _ => gauged_oneofMember group fields head) fields

/-! ## Messages -/

theorem gauged_messageMember (message : Message) (head : List String × Token) :
    Gauged (messageMember message head) message.innerNesting Message.innerNesting cursor := by
  unfold messageMember
  split
  · exact .pure rfl
  · -- a member that is added joins the maximum of the message
    split
    · refine .read gauged_enumRest (Nat.zero_le _) fun decl _ => ?_
      simp only [Message.innerNesting, Message.memberNesting, deepest_concat,
        decl.nesting_withComments]
      ac_rfl
    · exact .read (gauged_extensionsRest _) (Nat.zero_le _) fun _ _ => (Nat.max_zero _).symm
    · exact .read (gauged_reservedRest _ _) (Nat.zero_le _) fun _ _ => (Nat.max_zero _).symm
    · -- the fields of the message go on growing, so they already are part of the maximum
      refine .read (gauged_oneofRest _) message.fieldNesting_le fun fields hLe => ?_
      simp only [Message.innerNesting, Message.memberNesting]
      conv => lhs; rw [← Nat.max_eq_right hLe]
      ac_rfl
    · refine .read (gauged_bindOptionRest _) message.optionNesting_le fun options hLe => ?_
      simp only [Message.innerNesting, Message.memberNesting]
      conv => lhs; rw [← Nat.max_eq_right hLe]
      ac_rfl
    · refine .read (gauged_fieldRest _ _) (Nat.zero_le _) fun field _ => ?_
      simp only [Message.innerNesting, Message.memberNesting, deepest_concat]
      ac_rfl

/-- A block lies one level below its message. -/
theorem innerNesting_addBlock (message : Message) (kind : BlockKind) (comments : List String)
    (name : String) (inner : Message) :
    (addBlock message kind comments name inner).innerNesting =
      max message.innerNesting (inner.innerNesting + 1) := by
  cases kind with
  | message =>
      rw [← inner.nesting_eq_innerNesting, ← inner.nesting_withComments comments]
      simp only [addBlock, Message.innerNesting, Message.memberNesting, deepest_concat]
      ac_rfl
  | extend =>
      rw [← inner.nesting_eq_innerNesting]
      simp only [addBlock, Message.innerNesting, Message.memberNesting, deepest_concat,
        ExtendBlock.nesting]
      ac_rfl

theorem gauged_block (kind : BlockKind) {body : String → Parser α} {levels : α → Nat}
    (hBody : ∀ name (entered : Cursor), entered.left < cursor.left →
      Gauged (body name) 0 levels entered) :
    Gauged (block kind body) 0 (fun named => levels named.2 + 1) cursor := by
  refine .after_levelless (.word _ _) fun name afterName hName => ?_
  refine .after_levelless (.expect _ _) fun _ afterBrace hBrace => ?_
  have hAhead := ((onward_of_ok hName).trans (onward_of_ok hBrace)).left_le
  have hInside : Gauged (inside "message" (body name)) 0 (fun value => levels value + 1)
      afterBrace := .inside fun entered hShorter => hBody name entered (by omega)
  exact hInside.bind fun inner _ _ => .pure rfl

/-- The members of a message, nested blocks included.  A block has fewer tokens ahead than
the members that it is one of. -/
theorem gauged_members (message : Message) (cursor : Cursor) :
    Gauged (members message) message.innerNesting Message.innerNesting cursor := by
  induction hLeft : cursor.left using Nat.strongRecOn generalizing message cursor with
  | ind left ih =>
      rw [members_eq_loop]
      refine .loop .statementHead (fun message head start hStart => ?_) message
      unfold messageStatement
      split
      · exact gauged_messageMember message head
      · next kind _ =>
          have hBlock : Gauged (block kind fun name => members (.new name)) 0
              (fun named => named.2.innerNesting + 1) start :=
            gauged_block kind fun name entered hShorter =>
              ih entered.left (by omega) (.new name) entered rfl
          exact .read hBlock (Nat.zero_le _) fun named _ => innerNesting_addBlock ..

/-- A message has the levels of its members and one more for its body. -/
theorem gauged_messageBlock (kind : BlockKind) :
    Gauged (block kind fun name => members (.new name)) 0 (fun named => named.2.nesting)
      cursor := by
  simp only [Message.nesting_eq_innerNesting]
  exact gauged_block kind fun name entered _ => gauged_members (.new name) entered

theorem gauged_messageRest : Gauged messageRest 0 Message.nesting cursor :=
  .read (gauged_messageBlock .message) (Nat.le_refl 0) fun _ _ => (Nat.zero_max _).symm

theorem gauged_extendRest : Gauged extendRest 0 ExtendBlock.nesting cursor :=
  .read (gauged_messageBlock .extend) (Nat.le_refl 0) fun _ _ => (Nat.zero_max _).symm

/-! ## Services -/

theorem levelless_rpcType (context : String) : Levelless (rpcType context) := by
  refine .bind (.eat _) fun isMap => ?_
  split
  · exact .bind levelless_mapTypeRest fun type => .pure _
  · refine .bind (.eat _) fun repeated => ?_
    refine .bind (.word _ _) fun type => ?_
    exact .pure _

theorem levelless_parameterName : Levelless parameterName := by
  refine .bind .peek fun ahead => ?_
  split
  · exact .pure none
  · exact .bind (.word _ _) fun name => .pure _

theorem levelless_rpcParameter (inputs : RpcInputs) : Levelless (rpcParameter inputs) := by
  refine .bind .takeComments fun _ => ?_
  refine .bind (.eat _) fun stream => ?_
  refine .bind (levelless_rpcType _) fun typed => ?_
  refine .bind .takeComments fun _ => ?_
  refine .bind levelless_parameterName fun name => ?_
  refine .bind .takeComments fun _ => ?_
  exact .pure _

theorem gauged_rpcParameters : Gauged rpcParameters 0 (fun _ => 0) cursor := by
  refine .after_levelless .takeComments fun _ afterComments _ => ?_
  refine .after_levelless (.eat _) fun closed afterClosed _ => ?_
  split
  · exact .pure rfl
  · exact gauged_commaList_of_levelless levelless_rpcParameter _ _ _

theorem gauged_rpcBodyMember (options : OptionMap) (head : List String × Token) :
    Gauged (rpcBodyMember options head) options.nesting OptionMap.nesting cursor := by
  unfold rpcBodyMember
  split
  · exact .pure rfl
  · split
    · exact gauged_bindOptionRest options
    · exact .rejectLast _

theorem gauged_rpcEnd : Gauged rpcEnd 0 OptionMap.nesting cursor := by
  refine .after_levelless (.eat _) fun closed afterClosed _ => ?_
  split
  · exact .pure rfl
  · refine .after_levelless (.expect _ _) fun _ start _ => ?_
    have hOptions : Gauged (loop (memberHead "rpc") rpcBodyMember ∅) 0 OptionMap.nesting start :=
      .loop (.memberHead _) (fun options head _ _ => gauged_rpcBodyMember options head) ∅
    refine hOptions.bind fun options afterOptions _ => ?_
    refine .after_levelless (.eat _) fun _ afterSemicolon _ => ?_
    exact .pure rfl

theorem gauged_rpcRest (comments : List String) :
    Gauged (rpcRest comments) 0 (fun method => method.options.nesting) cursor := by
  refine .after_levelless (.word _ _) fun name afterName _ => ?_
  refine .after_levelless (.expect _ _) fun _ afterOpen _ => ?_
  refine gauged_rpcParameters.bind fun inputs afterInputs _ => ?_
  refine .after_levelless (.expect _ _) fun _ afterReturns _ => ?_
  refine .after_levelless (.expect _ _) fun _ afterParen _ => ?_
  refine .after_levelless (.eat _) fun stream afterStream _ => ?_
  refine .after_levelless (levelless_rpcType _) fun type afterType _ => ?_
  refine .after_levelless (.expect _ _) fun _ afterClose _ => ?_
  exact gauged_rpcEnd.bind fun options _ _ => .pure rfl

theorem gauged_serviceMember (service : Service) (head : List String × Token) :
    Gauged (serviceMember service head) service.nesting Service.nesting cursor := by
  have hMethod : Gauged (rpcRest head.1 >>= fun method =>
      pure { service with methods := service.methods ++ [method] }) service.nesting
      Service.nesting cursor := by
    refine .read (gauged_rpcRest _) (Nat.zero_le _) fun method _ => ?_
    simp only [Service.nesting, deepest_concat]
    ac_rfl
  unfold serviceMember
  split
  · exact .pure rfl
  · split
    · refine .read (gauged_bindOptionRest _) (Nat.le_max_left _ _) fun options hLe => ?_
      simp only [Service.nesting]
      omega
    · exact hMethod
    · exact hMethod
    · exact .rejectLast _

theorem gauged_serviceRest : Gauged serviceRest 0 Service.nesting cursor := by
  refine .after_levelless (.word _ _) fun name afterName _ => ?_
  refine .after_levelless (.expect _ _) fun _ start _ => ?_
  have hMembers : Gauged (loop (memberHead "service") serviceMember (.new name)) 0
      Service.nesting start :=
    .loop (.memberHead _) (fun service head _ _ => gauged_serviceMember service head) _
  refine hMembers.bind fun service afterService _ => ?_
  refine .after_levelless (.eat _) fun _ afterSemicolon _ => ?_
  exact .pure rfl

/-! ## Files -/

theorem levelless_packageRest : Levelless packageRest := by
  refine .bind (.word _ _) fun name => ?_
  refine .bind (.expect _ _) fun _ => ?_
  exact .pure _

theorem levelless_versionRest : Levelless versionRest := by
  refine .bind (.expect _ _) fun _ => ?_
  refine .bind (.next _ _) fun literal => ?_
  split
  · exact .fail _
  · exact .bind (.expect _ _) fun _ => .pure _

theorem levelless_importModifier : Levelless importModifier := by
  refine .bind (.eat _) fun isPublic => ?_
  split
  · exact .pure _
  · refine .bind (.eat _) fun isWeak => ?_
    split <;> exact .pure _

theorem levelless_importRest : Levelless importRest := by
  refine .bind levelless_importModifier fun modifier => ?_
  refine .bind (.word _ _) fun path => ?_
  refine .bind (.expect _ _) fun _ => ?_
  exact .pure _

theorem gauged_declaration (schema : Schema) (started : Bool) (comments : List String)
    (keyword : Option Keyword) :
    Gauged (declaration schema started comments keyword) schema.nesting Schema.nesting cursor := by
  unfold declaration
  split
  · exact .after_levelless levelless_packageRest fun name _ _ => .pure rfl
  · split
    · exact .fail _
    · exact .after_levelless levelless_versionRest fun version _ _ => .pure rfl
  · refine .read gauged_messageRest (Nat.zero_le _) fun decl _ => ?_
    simp only [Schema.nesting, deepest_concat, decl.nesting_withComments]
    ac_rfl
  · refine .read gauged_enumRest (Nat.zero_le _) fun decl _ => ?_
    simp only [Schema.nesting, deepest_concat, decl.nesting_withComments]
    ac_rfl
  · refine .read (gauged_bindOptionRest _) (Nat.le_max_left _ _) fun options hLe => ?_
    simp only [Schema.nesting]
    omega
  · exact .after_levelless levelless_importRest fun entry _ _ => .pure rfl
  · refine .read gauged_extendRest (Nat.zero_le _) fun block _ => ?_
    simp only [Schema.nesting, deepest_concat]
    ac_rfl
  · refine .read gauged_serviceRest (Nat.zero_le _) fun decl _ => ?_
    simp only [Schema.nesting, deepest_concat, decl.nesting_withComments]
    ac_rfl
  · exact .rejectLast _

theorem gauged_statement (state : FileState) (head : List String × Token) :
    Gauged (statement state head) state.schema.nesting (fun state => state.schema.nesting)
      cursor := by
  unfold statement
  split
  · exact .pure rfl
  · -- the comments of the file, which its first statement may set, have no levels
    have hSchema : ∀ schema : Schema, schema.nesting = state.schema.nesting →
        Gauged (declaration schema state.started head.1 (Keyword.ofToken? head.2) >>= fun grown =>
          pure (⟨grown, true⟩ : FileState)) state.schema.nesting
          (fun state => state.schema.nesting) cursor := by
      intro schema hSame
      rw [← hSame]
      exact (gauged_declaration _ _ _ _).bind fun grown _ _ => .pure rfl
    refine hSchema _ ?_
    split <;> rfl

theorem gauged_statements (version : LanguageVersion) :
    Gauged (loop statementHead statement ⟨.new version, false⟩) 0
      (fun state => state.schema.nesting) cursor :=
  .loop .statementHead (fun state head _ _ => gauged_statement state head) _

/-- A whole file needs as many levels as its schema has. -/
theorem gauged_file (version : LanguageVersion) :
    Gauged (file version) 0 Schema.nesting cursor := by
  refine (gauged_statements version).bind fun state afterState _ => ?_
  exact .pure rfl

end Grammar
end ProtoIdl
