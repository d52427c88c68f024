import ProtoIdl.Grammar.File
import ProtoIdl.Proofs.Literal.Option
import ProtoIdl.Proofs.Parser.MessageLoop

/-!
# The grammar with open and with closed literals

Every parser of the grammar is matched with itself.  An open literal is a name, a type or a path
wherever a closed one is, and neither is a mark, a keyword or a number.  Of the values that are
read, only those are compared that decide how the reading goes on or that a later error names.
-/

namespace ProtoIdl
namespace Grammar

open ProtoIdl.Parser

variable {cursor : Cursor}

/-! ## Numbers -/

theorem matched_rangeEnd (interval : Numeral.Interval) (first max : Int)
    (expected context : String) :
    Matched (rangeEnd interval first max expected context)
      (rangeEnd interval first max expected context) Eq cursor := by
  refine (Matched.eat (by decide)).bind fun further _ afterFurther _ hFurther => ?_
  subst hFurther
  split
  · refine (Matched.next _ _).bind fun literal other afterLiteral _ hLiteral => ?_
    subst hLiteral
    simp (disch := decide) only [Token.closed_eq_iff]
    split
    · exact .pure rfl
    · exact .numeral _ _ _
  · exact .pure rfl

theorem matched_extensionsRest (ranges others : List ExtensionRange) :
    Matched (extensionsRest ranges) (extensionsRest others) Any cursor := by
  refine .commaList (fun ranges others start _ => ?_) (by decide) _ trivial
  have hRange : Matched extensionRange extensionRange Any start := by
    refine (Matched.next _ _).bind fun literal other afterLiteral _ hLiteral => ?_
    subst hLiteral
    refine (Matched.numeral _ _ _).bind fun first _ afterFirst _ hFirst => ?_
    subst hFirst
    exact (matched_rangeEnd _ _ _ _ _).read fun _ _ _ => trivial
  exact hRange.read fun _ _ _ => trivial

theorem matched_reservedEntry (max : Int) :
    Matched (reservedEntry max) (reservedEntry max) Any cursor := by
  refine (Matched.next _ _).bind fun literal other afterLiteral _ hLiteral => ?_
  subst hLiteral
  simp only [Token.startsQuoted_closed]
  split
  · exact .pure trivial
  · refine (Matched.numeral _ _ _).bind fun first _ afterFirst _ hFirst => ?_
    subst hFirst
    exact (matched_rangeEnd _ _ _ _ _).read fun _ _ _ => trivial

theorem matched_reservedRest (max : Int) (reserved others : List Reserved) :
    Matched (reservedRest max reserved) (reservedRest max others) Any cursor :=
  .commaList (fun _ _ _ _ => (matched_reservedEntry max).read fun _ _ _ => trivial) (by decide) _
    trivial

/-! ## Enums -/

theorem matched_enumValueShape : Matched enumValueShape enumValueShape Any cursor := by
  refine (Matched.peekNth 0).bind fun sign signOther start _ hSign => ?_
  refine (Matched.peekNth 2).bind fun terminator terminatorOther start _ hTerminator => ?_
  subst hSign hTerminator
  cases terminator with
  | none => exact .rejectEnd _ _
  | some terminator =>
      simp (disch := decide) only [Option.map_some, ne_eq, Token.map_closed_eq_some_iff,
        Token.closed_eq_iff]
      split
      · exact .rejectNth _ _
      · split
        · exact .rejectNth _ _
        · exact .pure trivial

theorem matched_enumValueRest (comments others : List String) (first : Token) :
    Matched (enumValueRest comments first) (enumValueRest others first.closed) Any cursor := by
  refine matched_enumValueShape.bind fun _ _ afterShape _ _ => ?_
  refine (Matched.checkWord _ _).bind fun name other afterName _ _ => ?_
  refine (Matched.expect (by decide) _).bind fun _ _ afterEquals _ _ => ?_
  refine (Matched.next _ _).bind fun literal literalOther afterLiteral _ hLiteral => ?_
  subst hLiteral
  refine (Matched.numeral _ _ _).bind fun number _ afterNumber _ _ => ?_
  refine matched_optionalFieldOptions.bind fun options optionsOther afterOptions _ _ => ?_
  exact (Matched.expect (by decide) _).read fun _ _ _ => trivial

theorem matched_enumMember (decl other : EnumDecl) {head headOther : List String × Token}
    (hHead : headOther.2 = head.2.closed) :
    Matched (enumMember decl head) (enumMember other headOther) Any cursor := by
  unfold enumMember
  simp (disch := decide) only [hHead, Token.closed_eq_iff, Token.ofToken?_closed]
  split
  · exact .pure trivial
  · split
    · exact (matched_bindOptionRest _ _).read fun _ _ _ => trivial
    · exact (matched_reservedRest _ _ _).read fun _ _ _ => trivial
    · refine (matched_enumValueRest _ _ _).bind fun value valueOther afterValue _ _ => ?_
      exact .ofExcept (fun _ => isDuplicate_of_addEnumValue)
        (fun _ => isDuplicate_of_addEnumValue) fun _ _ _ _ => trivial

theorem matched_enumRest : Matched enumRest enumRest Any cursor := by
  refine (Matched.word _ _).bind fun name other afterName _ _ => ?_
  refine (Matched.expect (by decide) _).bind fun _ _ between _ _ => ?_
  have hMembers : Matched (loop (memberHead "enum") enumMember (.new name))
      (loop (memberHead "enum") enumMember (.new other)) Any between :=
    .loop (fun _ => .memberHead _)
      (fun decl other _ _ _ _ _ hHead => matched_enumMember decl other hHead) trivial
  refine hMembers.bind fun decl declOther afterDecl _ _ => ?_
  exact (Matched.eat (by decide)).read fun _ _ _ => trivial

/-! ## Fields -/

/-- The second type is the first one with the literal that is its name closed. -/
abbrev ClosesType (type other : FieldType) : Prop :=
  other.name = Token.closed type.name

theorem closesType_ofName (name : Token) : ClosesType (.ofName name) (.ofName name.closed) := by
  have hName : ∀ name : Token, (FieldType.ofName name).name = name := by
    intro name
    unfold FieldType.ofName
    split <;> rfl
  rw [ClosesType, hName, hName]

theorem matched_mapTypeRest : Matched mapTypeRest mapTypeRest ClosesType cursor := by
  refine (Matched.expect (by decide) _).bind fun _ _ afterOpen _ _ => ?_
  refine (Matched.word _ _).bind fun key keyOther afterKey _ _ => ?_
  refine (Matched.expect (by decide) _).bind fun _ _ afterComma _ _ => ?_
  refine (Matched.word _ _).bind fun value valueOther afterValue _ _ => ?_
  have hMap : Token.closed "map" = "map" := Token.closed_eq_self (by decide)
  exact (Matched.expect (by decide) _).read fun _ _ _ => hMap.symm

theorem matched_fieldWord (slot : FieldSlot) :
    Matched (fieldWord slot) (fieldWord slot.closed) Closes cursor := by
  refine Matched.peek.bind fun ahead aheadOther start _ hAhead => ?_
  subst hAhead
  simp (disch := decide) only [Token.map_closed_eq_some_iff, FieldSlot.noun_closed]
  split
  · exact .fail rfl
  · exact .word _ _

theorem matched_ruledHead (comments others : List String) (required repeated : Bool) :
    Matched (ruledHead comments required repeated) (ruledHead others required repeated)
      (fun head other => ClosesType head.type other.type) cursor := by
  refine Matched.takeComments.bind fun more moreOther afterComments _ _ => ?_
  refine (matched_fieldWord .type).read fun type other hType => ?_
  subst hType
  exact closesType_ofName type

theorem matched_fieldHead (comments others : List String) (first : Token) :
    Matched (fieldHead comments first) (fieldHead others first.closed)
      (fun head other => ClosesType head.type other.type) cursor := by
  unfold fieldHead
  rw [Token.ofToken?_closed]
  split
  · exact matched_mapTypeRest.read fun _ _ hType => hType
  · exact matched_ruledHead _ _ _ _
  · exact matched_ruledHead _ _ _ _
  · exact matched_ruledHead _ _ _ _
  · refine (Matched.checkWord _ _).read fun type other hType => ?_
    subst hType
    exact closesType_ofName type

theorem matched_fieldRest (comments others : List String) (first : Token) :
    Matched (fieldRest comments first) (fieldRest others first.closed) Any cursor := by
  refine (matched_fieldHead _ _ _).bind fun head other afterHead _ hHead => ?_
  -- the error about a missing name names the type that has been read
  have hSlot : FieldSlot.name other.type.name = (FieldSlot.name head.type.name).closed :=
    congrArg FieldSlot.name hHead
  rw [hSlot]
  refine (matched_fieldWord _).bind fun name nameOther afterName _ _ => ?_
  refine (Matched.expect (by decide) _).bind fun _ _ afterEquals _ _ => ?_
  refine (Matched.next _ _).bind fun literal literalOther afterLiteral _ hLiteral => ?_
  subst hLiteral
  refine (Matched.numeral _ _ _).bind fun tag _ afterTag _ _ => ?_
  refine matched_optionalFieldOptions.bind fun options optionsOther afterOptions _ _ => ?_
  exact (Matched.expect (by decide) _).read fun _ _ _ => trivial

theorem matched_oneofMember (group groupOther : String) (fields others : List Field)
    {head headOther : List String × Token} (hHead : headOther.2 = head.2.closed) :
    Matched (oneofMember group fields head) (oneofMember groupOther others headOther) Any
      cursor := by
  unfold oneofMember
  simp (disch := decide) only [hHead, Token.closed_eq_iff, Token.ofToken?_closed]
  split
  · exact .pure trivial
  · split
    · exact .rejectLast _
    · exact .rejectLast _
    · exact .rejectLast _
    · exact .rejectLast _
    · exact (matched_fieldRest _ _ _).read fun _ _ _ => trivial

theorem matched_oneofRest (fields others : List Field) :
    Matched (oneofRest fields) (oneofRest others) Any cursor := by
  refine (Matched.word _ _).bind fun group groupOther afterGroup _ _ => ?_
  refine (Matched.expect (by decide) _).bind fun _ _ afterBrace _ _ => ?_
  exact .loop (fun _ => .memberHead _)
    (fun fields others _ _ _ _ _ hHead => matched_oneofMember group groupOther fields others hHead)
    trivial

/-! ## Messages -/

theorem BlockKind.ofToken?_closed (token : Token) :
    BlockKind.ofToken? token.closed = BlockKind.ofToken? token := by
  rw [BlockKind.ofToken?, BlockKind.ofToken?, Token.ofToken?_closed]

theorem matched_messageMember (message other : Message) {head headOther : List String × Token}
    (hHead : headOther.2 = head.2.closed) :
    Matched (messageMember message head) (messageMember other headOther) Any cursor := by
  unfold messageMember
  simp (disch := decide) only [hHead, Token.closed_eq_iff, Token.ofToken?_closed]
  split
  · exact .pure trivial
  · split
    · exact matched_enumRest.read fun _ _ _ => trivial
    · exact (matched_extensionsRest _ _).read fun _ _ _ => trivial
    · exact (matched_reservedRest _ _ _).read fun _ _ _ => trivial
    · exact (matched_oneofRest _ _).read fun _ _ _ => trivial
    · exact (matched_bindOptionRest _ _).read fun _ _ _ => trivial
    · exact (matched_fieldRest _ _ _).read fun _ _ _ => trivial

theorem matched_block (kind : BlockKind) {body : String → Parser α} {other : String → Parser β}
    (hBody : ∀ name nameOther (entered : Cursor), entered.left < cursor.left →
      Matched (body name) (other nameOther) Any entered) :
    Matched (block kind body) (block kind other) Any cursor := by
  refine (Matched.word _ _).bind fun name nameOther afterName hName _ => ?_
  refine (Matched.expect (by decide) _).bind fun _ _ afterBrace hBrace _ => ?_
  have hAhead := ((onward_of_ok hName).trans (onward_of_ok hBrace)).left_le
  have hInside : Matched (inside "message" (body name)) (inside "message" (other nameOther)) Any
      afterBrace := .inside fun entered hShorter => hBody name nameOther entered (by omega)
  exact hInside.read fun _ _ _ => trivial

/-- The members of a message, nested blocks included.  A block has fewer tokens ahead than the
members that it is one of. -/
theorem matched_members (message other : Message) (cursor : Cursor) :
    Matched (members message) (members other) Any cursor := by
  induction hLeft : cursor.left using Nat.strongRecOn generalizing message other cursor with
  | ind left ih =>
      rw [members_eq_loop, members_eq_loop]
      refine .loop (fun _ => .statementHead)
        (fun message other head headOther start hStart _ hHead => ?_) trivial
      have hBlock : ∀ kind, Matched (block kind fun name => members (.new name))
          (block kind fun name => members (.new name)) Any start :=
        fun kind => matched_block kind fun name nameOther entered hShorter =>
          ih entered.left (by omega) (.new name) (.new nameOther) entered rfl
      unfold messageStatement
      rw [hHead, BlockKind.ofToken?_closed]
      cases BlockKind.ofToken? head.2 with
      | none => exact matched_messageMember message other hHead
      | some kind => exact (hBlock kind).read fun _ _ _ => trivial

theorem matched_messageRest : Matched messageRest messageRest Any cursor :=
  (matched_block .message fun name nameOther entered _ =>
    matched_members (.new name) (.new nameOther) entered).read fun _ _ _ => trivial

theorem matched_extendRest : Matched extendRest extendRest Any cursor :=
  (matched_block .extend fun name nameOther entered _ =>
    matched_members (.new name) (.new nameOther) entered).read fun _ _ _ => trivial

/-! ## Services -/

theorem matched_rpcType (context : String) :
    Matched (rpcType context) (rpcType context) Any cursor := by
  refine (Matched.eat (by decide)).bind fun isMap _ afterMap _ hMap => ?_
  subst hMap
  split
  · exact matched_mapTypeRest.read fun _ _ _ => trivial
  · refine (Matched.eat (by decide)).bind fun repeated _ afterRepeated _ _ => ?_
    exact (Matched.word _ _).read fun _ _ _ => trivial

theorem matched_parameterName : Matched parameterName parameterName Any cursor := by
  refine Matched.peek.bind fun ahead aheadOther start _ hAhead => ?_
  subst hAhead
  simp (disch := decide) only [Token.map_closed_eq_some_iff]
  split
  · exact .pure trivial
  · exact (Matched.word _ _).read fun _ _ _ => trivial

theorem matched_rpcParameter (inputs others : RpcInputs) :
    Matched (rpcParameter inputs) (rpcParameter others) Any cursor := by
  refine Matched.takeComments.bind fun _ _ afterComments _ _ => ?_
  refine (Matched.eat (by decide)).bind fun stream _ afterStream _ _ => ?_
  refine (matched_rpcType _).bind fun type typeOther afterType _ _ => ?_
  refine Matched.takeComments.bind fun _ _ afterComments _ _ => ?_
  refine matched_parameterName.bind fun name nameOther afterName _ _ => ?_
  exact Matched.takeComments.read fun _ _ _ => trivial

theorem matched_rpcParameters : Matched rpcParameters rpcParameters Any cursor := by
  refine Matched.takeComments.bind fun _ _ afterComments _ _ => ?_
  refine (Matched.eat (by decide)).bind fun closed _ afterClosed _ hClosed => ?_
  subst hClosed
  split
  · exact .pure trivial
  · exact .commaList (fun inputs others _ _ => matched_rpcParameter inputs others) (by decide) _
      trivial

theorem matched_rpcBodyMember (options others : OptionMap) {head headOther : List String × Token}
    (hHead : headOther.2 = head.2.closed) :
    Matched (rpcBodyMember options head) (rpcBodyMember others headOther) Any cursor := by
  unfold rpcBodyMember
  simp (disch := decide) only [hHead, Token.closed_eq_iff, Token.ofToken?_closed]
  split
  · exact .pure trivial
  · split
    · exact matched_bindOptionRest _ _
    · exact .rejectLast _

theorem matched_rpcEnd : Matched rpcEnd rpcEnd Any cursor := by
  refine (Matched.eat (by decide)).bind fun closed _ afterClosed _ hClosed => ?_
  subst hClosed
  split
  · exact .pure trivial
  · refine (Matched.expect (by decide) _).bind fun _ _ between _ _ => ?_
    have hOptions : Matched (loop (memberHead "rpc") rpcBodyMember ∅)
        (loop (memberHead "rpc") rpcBodyMember ∅) Any between :=
      .loop (fun _ => .memberHead _)
        (fun options others _ _ _ _ _ hHead => matched_rpcBodyMember options others hHead) trivial
    refine hOptions.bind fun options others afterOptions _ _ => ?_
    exact (Matched.eat (by decide)).read fun _ _ _ => trivial

theorem matched_rpcRest (comments others : List String) :
    Matched (rpcRest comments) (rpcRest others) Any cursor := by
  refine (Matched.word _ _).bind fun name nameOther afterName _ _ => ?_
  refine (Matched.expect (by decide) _).bind fun _ _ afterOpen _ _ => ?_
  refine matched_rpcParameters.bind fun inputs inputsOther afterInputs _ _ => ?_
  refine (Matched.expect (by decide) _).bind fun _ _ afterReturns _ _ => ?_
  refine (Matched.expect (by decide) _).bind fun _ _ afterParen _ _ => ?_
  refine (Matched.eat (by decide)).bind fun stream _ afterStream _ _ => ?_
  refine (matched_rpcType _).bind fun type typeOther afterType _ _ => ?_
  refine (Matched.expect (by decide) _).bind fun _ _ afterClose _ _ => ?_
  exact matched_rpcEnd.read fun _ _ _ => trivial

theorem matched_serviceMember (service other : Service) {head headOther : List String × Token}
    (hHead : headOther.2 = head.2.closed) :
    Matched (serviceMember service head) (serviceMember other headOther) Any cursor := by
  unfold serviceMember
  simp (disch := decide) only [hHead, Token.closed_eq_iff, Token.ofToken?_closed]
  split
  · exact .pure trivial
  · split
    · exact (matched_bindOptionRest _ _).read fun _ _ _ => trivial
    · exact (matched_rpcRest _ _).read fun _ _ _ => trivial
    · exact (matched_rpcRest _ _).read fun _ _ _ => trivial
    · exact .rejectLast _

theorem matched_serviceRest : Matched serviceRest serviceRest Any cursor := by
  refine (Matched.word _ _).bind fun name nameOther afterName _ _ => ?_
  refine (Matched.expect (by decide) _).bind fun _ _ between _ _ => ?_
  have hMembers : Matched (loop (memberHead "service") serviceMember (.new name))
      (loop (memberHead "service") serviceMember (.new nameOther)) Any between :=
    .loop (fun _ => .memberHead _)
      (fun service other _ _ _ _ _ hHead => matched_serviceMember service other hHead) trivial
  refine hMembers.bind fun service other afterService _ _ => ?_
  exact (Matched.eat (by decide)).read fun _ _ _ => trivial

/-! ## Files -/

theorem matched_packageRest : Matched packageRest packageRest Any cursor := by
  refine (Matched.word _ _).bind fun name nameOther afterName _ _ => ?_
  exact (Matched.expect (by decide) _).read fun _ _ _ => trivial

theorem matched_versionRest : Matched versionRest versionRest Any cursor := by
  refine (Matched.expect (by decide) _).bind fun _ _ afterEquals _ _ => ?_
  refine (Matched.next _ _).bind fun literal other afterLiteral _ hLiteral => ?_
  subst hLiteral
  simp only [Token.versionOfLiteral?_closed]
  cases versionOfLiteral? literal with
  | none => exact .fail rfl
  | some version => exact (Matched.expect (by decide) _).read fun _ _ _ => trivial

theorem matched_importModifier : Matched importModifier importModifier Any cursor := by
  refine (Matched.eat (by decide)).bind fun isPublic _ afterPublic _ hPublic => ?_
  subst hPublic
  split
  · exact .pure trivial
  · refine (Matched.eat (by decide)).bind fun isWeak _ afterWeak _ hWeak => ?_
    subst hWeak
    split
    · exact .pure trivial
    · exact .pure trivial

theorem matched_importRest : Matched importRest importRest Any cursor := by
  refine matched_importModifier.bind fun modifier other afterModifier _ _ => ?_
  refine (Matched.word _ _).bind fun path pathOther afterPath _ _ => ?_
  exact (Matched.expect (by decide) _).read fun _ _ _ => trivial

theorem matched_declaration (schema other : Schema) (started : Bool)
    (comments others : List String) (keyword : Option Keyword) :
    Matched (declaration schema started comments keyword)
      (declaration other started others keyword) Any cursor := by
  unfold declaration
  split
  · exact matched_packageRest.read fun _ _ _ => trivial
  · split
    · exact .fail rfl
    · exact matched_versionRest.read fun _ _ _ => trivial
  · exact matched_messageRest.read fun _ _ _ => trivial
  · exact matched_enumRest.read fun _ _ _ => trivial
  · exact (matched_bindOptionRest _ _).read fun _ _ _ => trivial
  · exact matched_importRest.read fun _ _ _ => trivial
  · exact matched_extendRest.read fun _ _ _ => trivial
  · exact matched_serviceRest.read fun _ _ _ => trivial
  · exact .rejectLast _

/-- The statements of the two files have begun or have not. -/
abbrev SameStart (state other : FileState) : Prop :=
  other.started = state.started

theorem matched_statement {state other : FileState} (hState : SameStart state other)
    {head headOther : List String × Token} (hHead : headOther.2 = head.2.closed) :
    Matched (statement state head) (statement other headOther) SameStart cursor := by
  unfold statement
  simp (disch := decide) only [hHead, hState, Token.closed_eq_iff, Token.ofToken?_closed]
  split
  · exact .pure hState
  · exact (matched_declaration _ _ _ _ _ _).read fun _ _ _ => rfl

/-- A file is read with its literals open as it is with them closed. -/
theorem matched_file (version : LanguageVersion) :
    Matched (file version) (file version) Any cursor := by
  have hStatements : Matched (loop statementHead statement ⟨.new version, false⟩)
      (loop statementHead statement ⟨.new version, false⟩) SameStart cursor :=
    .loop (fun _ => .statementHead)
      (fun _ _ _ _ _ _ hState hHead => matched_statement hState hHead) rfl
  exact hStatements.read fun _ _ _ => trivial

end Grammar
end ProtoIdl
