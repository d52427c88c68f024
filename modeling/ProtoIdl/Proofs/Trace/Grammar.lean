import ProtoIdl.Grammar.File
import ProtoIdl.Proofs.Parser.Duplicate
import ProtoIdl.Proofs.Trace.Steps

/-!
# Traces of the grammar

Every parser of the grammar runs by primitive steps.  A parser of what follows a token
that has already been taken may reject that token, so its trace asks for a cursor that
has passed one.  Option maps and bodies of messages contain themselves, and their traces
go by induction on the tokens ahead.
-/

namespace ProtoIdl
namespace Grammar

open ProtoIdl.Parser

variable {cursor : Cursor}

/-! ## Options -/

/-- A name is refused for what it is. -/
theorem ofContent_of_isDuplicate {fault : ParseError} (hDuplicate : fault.IsDuplicate) :
    fault.OfContent := by
  obtain ⟨_, _, rfl⟩ := hDuplicate
  trivial

theorem traced_bind (options : OptionMap) (key : String) (value : OptionValue) :
    Traced (ofExcept (options.bind key value)) cursor :=
  .ofExcept fun _ hFault => ofContent_of_isDuplicate (OptionMap.isDuplicate_of_bind hFault)

theorem traced_store (form : NestedForm) (options : OptionMap) (key : String)
    (inner : OptionMap) : Traced (ofExcept (form.store options key inner)) cursor :=
  .ofExcept fun _ hFault => ofContent_of_isDuplicate (isDuplicate_of_store hFault)

theorem traced_entryKey (hSeen : cursor.seen ≠ []) (first : Token) :
    Traced (entryKey first) cursor := by
  unfold entryKey
  split
  · refine .bind (.word _ _) fun key afterKey _ => ?_
    refine .bind (.expect _ _) fun _ afterClose _ => ?_
    exact .pure key
  · split
    · exact .rejectLast hSeen
    · exact .pure first

theorem traced_entryValue (options : OptionMap) (key : String) :
    Traced (entryValue options key) cursor := by
  refine .bind .takeComments fun _ afterComments _ => ?_
  refine .next_bind fun sign after hSeen => ?_
  split
  · split
    · exact .fail trivial
    · refine .bind .takeComments fun _ afterComments _ => ?_
      refine .next_bind fun value after hSeen => ?_
      split
      · exact .pure _
      · split
        · exact .rejectLast hSeen
        · exact .pure _
  · split
    · exact .pure _
    · exact .rejectLast hSeen

theorem traced_mapEntry (options : OptionMap) : Traced (mapEntry options) cursor := by
  refine .bind .takeComments fun _ afterComments _ => ?_
  refine .next_bind fun first after hSeen => ?_
  split
  · exact .pure _
  · split
    · exact .pure _
    · exact .bind (traced_entryKey hSeen first) fun key _ _ => traced_entryValue options key

/-- A map is traced if its entries are, from wherever it is entered. -/
theorem traced_optionMap_of_entries
    (hEntries : ∀ entered, cursor.Onward entered → Traced (entries ∅) entered) :
    Traced optionMap cursor := by
  refine .bind .enter fun _ entered hEnter => ?_
  refine .bind (hEntries entered (onward_of_ok hEnter)) fun inner afterInner _ => ?_
  refine .bind .leave fun _ afterLeave _ => ?_
  exact .pure inner

/-- The entries of an option map, nested maps included.  Every round takes a token, and
both a nested map and the entries after it start further on. -/
theorem traced_entries (options : OptionMap) (cursor : Cursor) :
    Traced (entries options) cursor := by
  induction hLeft : cursor.left using Nat.strongRecOn generalizing options cursor with
  | ind left ih =>
      rw [entries_eq]
      refine .bind (traced_mapEntry options) fun entry between hEntry => ?_
      have hLess := mapEntry_consumes options cursor entry between hEntry trivial
      have hLater : ∀ grown after, between.Onward after → Traced (entries grown) after := by
        intro grown after hOnward
        have hLe := hOnward.left_le
        exact ih after.left (by omega) grown after rfl
      cases entry with
      | close => exact .pure options
      | separator => exact hLater options between (.refl between)
      | literal key value =>
          refine .bind (traced_bind options key value) fun grown after hRun => ?_
          exact hLater grown after (onward_of_ok hRun)
      | nested form key =>
          refine .bind (traced_optionMap_of_entries (hLater ∅)) fun inner afterMap hMapRun => ?_
          refine .bind (traced_store form options key inner) fun grown after hRun => ?_
          exact hLater grown after ((onward_of_ok hMapRun).trans (onward_of_ok hRun))

theorem traced_optionMap : Traced optionMap cursor :=
  traced_optionMap_of_entries fun entered _ => traced_entries ∅ entered

theorem traced_optionName (context : String) : Traced (optionName context) cursor := by
  refine .bind (.eat _) fun opened afterOpened _ => ?_
  split
  · refine .bind (.word _ _) fun name afterName _ => ?_
    refine .bind (.expect _ _) fun _ afterClose _ => ?_
    refine .bind (.takeIf _) fun suffix afterSuffix _ => ?_
    cases suffix with
    | some suffix => exact .pure _
    | none => exact .pure name
  · exact .word _ _

theorem traced_optionValue (name context : String) :
    Traced (optionValue name context) cursor := by
  refine .next_bind fun first after hSeen => ?_
  have hAdmitted : ∀ (value : OptionValue) (later : Cursor),
      Traced (if admitsValue name value then pure value else fail (.invalidOptimizeFor first))
        later := by
    intro value later
    split
    · exact .pure value
    · exact .fail trivial
  unfold valueFrom
  dsimp only
  split
  · exact .bind (.map _ traced_optionMap) fun value later _ => hAdmitted value later
  · split
    · exact .bind (.rejectLast hSeen) fun value later _ => hAdmitted value later
    · exact hAdmitted _ after

theorem traced_optionBinding (context : String) : Traced (optionBinding context) cursor := by
  refine .bind (traced_optionName context) fun name afterName _ => ?_
  refine .bind (.expect _ _) fun _ afterEquals _ => ?_
  refine .bind (traced_optionValue name context) fun value afterValue _ => ?_
  exact .pure (name, value)

theorem traced_optionRest : Traced optionRest cursor := by
  refine .bind (traced_optionBinding _) fun binding afterBinding _ => ?_
  refine .bind (.expect _ _) fun _ afterEnd _ => ?_
  exact .pure binding

theorem traced_bindOptionRest (options : OptionMap) :
    Traced (bindOptionRest options) cursor :=
  .bind traced_optionRest fun binding _ _ => traced_bind options binding.1 binding.2

theorem traced_fieldOption (options : OptionMap) : Traced (fieldOption options) cursor := by
  refine .bind .takeComments fun _ afterComments _ => ?_
  refine .bind (traced_optionBinding _) fun binding afterBinding _ => ?_
  refine .bind (traced_bind options _ _) fun grown afterStore _ => ?_
  refine .bind .takeComments fun _ afterComments _ => ?_
  exact .pure grown

theorem traced_fieldOptions : Traced fieldOptions cursor := by
  refine .bind (.expect _ _) fun _ afterOpen _ => ?_
  exact .commaList (fun options _ => traced_fieldOption options) _ _ ∅

theorem traced_optionalFieldOptions : Traced optionalFieldOptions cursor := by
  refine .bind .peek fun ahead start _ => ?_
  split
  · exact traced_fieldOptions
  · exact .pure ∅

/-! ## Ranges and reserved entries -/

theorem traced_rangeEnd (interval : Numeral.Interval) (first max : Int)
    (expected context : String) :
    Traced (rangeEnd interval first max expected context) cursor := by
  refine .bind (.eat _) fun found afterFound _ => ?_
  split
  · refine .bind (.next _ _) fun literal afterLiteral _ => ?_
    split
    · exact .pure max
    · exact .numeral interval literal context
  · exact .pure first

theorem traced_extensionsRest (ranges : List ExtensionRange) :
    Traced (extensionsRest ranges) cursor := by
  refine .commaList (fun ranges cursor => ?_) _ _ ranges
  have hRange : Traced extensionRange cursor := by
    refine .bind (.next _ _) fun literal afterLiteral _ => ?_
    refine .bind (.numeral _ _ _) fun first afterFirst _ => ?_
    refine .bind (traced_rangeEnd _ _ _ _ _) fun last afterLast _ => ?_
    exact .pure _
  exact .bind hRange fun range _ _ => .pure _

theorem traced_reservedEntry (max : Int) : Traced (reservedEntry max) cursor := by
  refine .bind (.next _ _) fun literal afterLiteral _ => ?_
  split
  · exact .pure _
  · refine .bind (.numeral _ _ _) fun first afterFirst _ => ?_
    refine .bind (traced_rangeEnd _ _ _ _ _) fun last afterLast _ => ?_
    exact .pure _

theorem traced_reservedRest (max : Int) (reserved : List Reserved) :
    Traced (reservedRest max reserved) cursor := by
  refine .commaList (fun reserved cursor => ?_) _ _ reserved
  exact .bind (traced_reservedEntry max) fun entry _ _ => .pure _

/-- A number and perhaps options, up to the semicolon after them. -/
theorem traced_numbered (interval : Numeral.Interval) (expected context what : String)
    (build : Int → OptionMap → α) :
    Traced
      (do
        expect "=" context
        let literal ← next expected context
        let number ← numeral interval literal what
        let options ← optionalFieldOptions
        expect ";" context
        return build number options) cursor := by
  refine .bind (.expect _ _) fun _ afterEquals _ => ?_
  refine .bind (.next _ _) fun literal afterLiteral _ => ?_
  refine .bind (.numeral _ _ _) fun number afterNumber _ => ?_
  refine .bind traced_optionalFieldOptions fun options afterOptions _ => ?_
  refine .bind (.expect _ _) fun _ afterEnd _ => ?_
  exact .pure _

/-! ## Enums -/

/-- The tokens that the shape of a value rejects lie in front of one that is there. -/
theorem traced_enumValueShape : Traced enumValueShape cursor := by
  refine .bind (.peekNth 0) fun sign afterSign _ => ?_
  refine .bind (.peekNth 2) fun terminator after hPeek => ?_
  cases terminator with
  | none => exact .rejectEnd _ _
  | some terminator =>
      -- the third token is there, and so are those before it
      have hAhead : 2 < after.left := by
        injection hPeek with hToken hAfter
        rw [← hAfter]
        exact (List.getElem?_eq_some_iff.mp hToken).choose
      dsimp only
      split
      · exact .rejectNth (by omega)
      · split
        · exact .rejectNth hAhead
        · exact .pure ()

theorem traced_enumValueRest (hSeen : cursor.seen ≠ []) (comments : List String)
    (first : Token) : Traced (enumValueRest comments first) cursor := by
  refine .bind_of_seen hSeen traced_enumValueShape fun _ after hSeen => ?_
  exact .bind (.checkWord hSeen _ _) fun name _ _ => traced_numbered _ _ _ _ _

theorem traced_enumMember (decl : EnumDecl) (head : List String × Token)
    (hSeen : cursor.seen ≠ []) : Traced (enumMember decl head) cursor := by
  unfold enumMember
  split
  · exact .pure decl
  · split
    · exact .bind (traced_bindOptionRest _) fun options _ _ => .pure _
    · exact .bind (traced_reservedRest _ _) fun reserved _ _ => .pure _
    · refine .bind (traced_enumValueRest hSeen _ _) fun value afterValue _ => ?_
      exact .ofExcept fun fault hFault =>
        ofContent_of_isDuplicate (isDuplicate_of_addEnumValue hFault)

theorem traced_enumRest : Traced enumRest cursor := by
  refine .bind (.word _ _) fun name afterName _ => ?_
  refine .bind (.expect _ _) fun _ braced _ => ?_
  refine .bind (.loop (fun _ => .memberHead _) ?_ _ braced) fun decl afterDecl _ => ?_
  · exact fun decl head cursor hSeen => traced_enumMember decl head hSeen
  · refine .bind (.eat _) fun _ afterSemicolon _ => ?_
    exact .pure decl

/-! ## Fields -/

theorem traced_mapTypeRest : Traced mapTypeRest cursor := by
  refine .bind (.expect _ _) fun _ afterOpen _ => ?_
  refine .bind (.word _ _) fun key afterKey _ => ?_
  refine .bind (.expect _ _) fun _ afterComma _ => ?_
  refine .bind (.word _ _) fun value afterValue _ => ?_
  refine .bind (.expect _ _) fun _ afterClose _ => ?_
  exact .pure _

theorem traced_fieldWord (slot : FieldSlot) : Traced (fieldWord slot) cursor := by
  refine .bind .peek fun ahead start _ => ?_
  split
  · exact .fail trivial
  · exact .word _ _

theorem traced_ruledHead (comments : List String) (required repeated : Bool) :
    Traced (ruledHead comments required repeated) cursor := by
  refine .bind .takeComments fun _ afterComments _ => ?_
  refine .bind (traced_fieldWord _) fun type afterType _ => ?_
  exact .pure _

theorem traced_fieldHead (hSeen : cursor.seen ≠ []) (comments : List String) (first : Token) :
    Traced (fieldHead comments first) cursor := by
  unfold fieldHead
  split
  · exact .bind traced_mapTypeRest fun type _ _ => .pure _
  · exact traced_ruledHead _ _ _
  · exact traced_ruledHead _ _ _
  · exact traced_ruledHead _ _ _
  · exact .bind (.checkWord hSeen _ _) fun type _ _ => .pure _

theorem traced_fieldRest (hSeen : cursor.seen ≠ []) (comments : List String) (first : Token) :
    Traced (fieldRest comments first) cursor := by
  refine .bind (traced_fieldHead hSeen _ _) fun head afterHead _ => ?_
  exact .bind (traced_fieldWord _) fun name _ _ => traced_numbered _ _ _ _ _

theorem traced_oneofMember (group : String) (fields : List Field)
    (head : List String × Token) (hSeen : cursor.seen ≠ []) :
    Traced (oneofMember group fields head) cursor := by
  unfold oneofMember
  split
  · exact .pure fields
  · split
    · exact .rejectLast hSeen
    · exact .rejectLast hSeen
    · exact .rejectLast hSeen
    · exact .rejectLast hSeen
    · exact .bind (traced_fieldRest hSeen _ _) fun field _ _ => .pure _

theorem traced_oneofRest (fields : List Field) : Traced (oneofRest fields) cursor := by
  refine .bind (.word _ _) fun group afterGroup _ => ?_
  refine .bind (.expect _ _) fun _ braced _ => ?_
  exact .loop (fun _ => .memberHead _)
    (fun fields head _ hSeen => traced_oneofMember group fields head hSeen) fields braced

/-! ## Messages -/

theorem traced_messageMember (message : Message) (head : List String × Token)
    (hSeen : cursor.seen ≠ []) : Traced (messageMember message head) cursor := by
  unfold messageMember
  split
  · exact .pure message
  · split
    · exact .bind traced_enumRest fun decl _ _ => .pure _
    · exact .bind (traced_extensionsRest _) fun ranges _ _ => .pure _
    · exact .bind (traced_reservedRest _ _) fun reserved _ _ => .pure _
    · exact .bind (traced_oneofRest _) fun fields _ _ => .pure _
    · exact .bind (traced_bindOptionRest _) fun options _ _ => .pure _
    · exact .bind (traced_fieldRest hSeen _ _) fun field _ _ => .pure _

/-- A block is traced if its body is, wherever fewer tokens are ahead. -/
theorem traced_block (kind : BlockKind) {body : String → Parser α}
    (hBody : ∀ name entered, entered.left < cursor.left → Traced (body name) entered) :
    Traced (block kind body) cursor := by
  refine .bind (.word _ _) fun name afterName hName => ?_
  refine .bind (.expect _ _) fun _ afterBrace hBrace => ?_
  refine .bind (.inside fun taken after entered hTaken hEnter => ?_) fun inner _ _ => .pure _
  have hAhead := ((onward_of_ok hName).trans (onward_of_ok hBrace)).left_le
  have hShorter := left_lt_of_takeBlock hTaken
  have hInside := (Cursor.onward_of_enter hEnter).left_le
  exact hBody name entered (by omega)

/-- The members of a message, nested blocks included.  The head of a member takes a
token, so the inside of a nested block and the members after it have fewer ahead. -/
theorem traced_members (message : Message) (cursor : Cursor) :
    Traced (members message) cursor := by
  induction hLeft : cursor.left using Nat.strongRecOn generalizing message cursor with
  | ind left ih =>
      rw [members_eq]
      refine .bind .statementHead fun found between hRun => ?_
      cases found with
      | none => exact .pure message
      | some head =>
          have hLess := statementHead.progress cursor _ between hRun rfl
          have hSeen := (onward_of_ok hRun).seen_ne_nil_of_lt hLess
          have hLater : ∀ grown after, after.left ≤ between.left →
              Traced (members grown) after := by
            intro grown after hLe
            exact ih after.left (by omega) grown after rfl
          simp only
          split
          · refine .bind (traced_messageMember message head hSeen) fun grown after hMember => ?_
            exact hLater grown after (onward_of_ok hMember).left_le
          · next kind hKind =>
              refine .bind (traced_block kind fun name entered hShorter => ?_) ?_
              · exact hLater _ entered (Nat.le_of_lt hShorter)
              · intro named after hBlock
                exact hLater _ after (onward_of_ok hBlock).left_le

theorem traced_messageRest : Traced messageRest cursor := by
  refine .bind (traced_block _ fun name entered _ => traced_members (.new name) entered)
    fun named afterNamed _ => ?_
  exact .pure _

theorem traced_extendRest : Traced extendRest cursor := by
  refine .bind (traced_block _ fun target entered _ => traced_members (.new target) entered)
    fun named afterNamed _ => ?_
  exact .pure _

/-! ## Services -/

theorem traced_rpcType (context : String) : Traced (rpcType context) cursor := by
  refine .bind (.eat _) fun isMap afterMap _ => ?_
  split
  · exact .bind traced_mapTypeRest fun type _ _ => .pure _
  · refine .bind (.eat _) fun repeated afterRepeated _ => ?_
    refine .bind (.word _ _) fun type afterType _ => ?_
    exact .pure _

theorem traced_parameterName : Traced parameterName cursor := by
  refine .bind .peek fun ahead start _ => ?_
  split
  · exact .pure none
  · exact .bind (.word _ _) fun name _ _ => .pure (some name)

theorem traced_rpcParameter (inputs : RpcInputs) : Traced (rpcParameter inputs) cursor := by
  refine .bind .takeComments fun _ afterComments _ => ?_
  refine .bind (.eat _) fun stream afterStream _ => ?_
  refine .bind (traced_rpcType _) fun type afterType _ => ?_
  refine .bind .takeComments fun _ afterComments _ => ?_
  refine .bind traced_parameterName fun name afterName _ => ?_
  refine .bind .takeComments fun _ afterComments _ => ?_
  exact .pure _

theorem traced_rpcParameters : Traced rpcParameters cursor := by
  refine .bind .takeComments fun _ afterComments _ => ?_
  refine .bind (.eat _) fun closed afterClosed _ => ?_
  split
  · exact .pure _
  · exact .commaList (fun inputs _ => traced_rpcParameter inputs) _ _ _

theorem traced_rpcBodyMember (options : OptionMap) (head : List String × Token)
    (hSeen : cursor.seen ≠ []) : Traced (rpcBodyMember options head) cursor := by
  unfold rpcBodyMember
  split
  · exact .pure options
  · split
    · exact traced_bindOptionRest options
    · exact .rejectLast hSeen

theorem traced_rpcEnd : Traced rpcEnd cursor := by
  refine .bind (.eat _) fun closed afterClosed _ => ?_
  split
  · exact .pure ∅
  · refine .bind (.expect _ _) fun _ braced _ => ?_
    refine .bind (.loop (fun _ => .memberHead _) ?_ _ braced) fun options afterOptions _ => ?_
    · exact fun options head cursor hSeen => traced_rpcBodyMember options head hSeen
    · refine .bind (.eat _) fun _ afterSemicolon _ => ?_
      exact .pure options

theorem traced_rpcRest (comments : List String) : Traced (rpcRest comments) cursor := by
  refine .bind (.word _ _) fun name afterName _ => ?_
  refine .bind (.expect _ _) fun _ afterOpen _ => ?_
  refine .bind traced_rpcParameters fun inputs afterInputs _ => ?_
  refine .bind (.expect _ _) fun _ afterReturns _ => ?_
  refine .bind (.expect _ _) fun _ afterParen _ => ?_
  refine .bind (.eat _) fun stream afterStream _ => ?_
  refine .bind (traced_rpcType _) fun type afterType _ => ?_
  refine .bind (.expect _ _) fun _ afterClose _ => ?_
  exact .bind traced_rpcEnd fun options _ _ => .pure _

theorem traced_serviceMember (service : Service) (head : List String × Token)
    (hSeen : cursor.seen ≠ []) : Traced (serviceMember service head) cursor := by
  unfold serviceMember
  split
  · exact .pure service
  · split
    · exact .bind (traced_bindOptionRest _) fun options _ _ => .pure _
    · exact .bind (traced_rpcRest _) fun method _ _ => .pure _
    · exact .bind (traced_rpcRest _) fun method _ _ => .pure _
    · exact .rejectLast hSeen

theorem traced_serviceRest : Traced serviceRest cursor := by
  refine .bind (.word _ _) fun name afterName _ => ?_
  refine .bind (.expect _ _) fun _ braced _ => ?_
  refine .bind (.loop (fun _ => .memberHead _) ?_ _ braced) fun service afterService _ => ?_
  · exact fun service head cursor hSeen => traced_serviceMember service head hSeen
  · refine .bind (.eat _) fun _ afterSemicolon _ => ?_
    exact .pure service

/-! ## Files -/

theorem traced_packageRest : Traced packageRest cursor := by
  refine .bind (.word _ _) fun name afterName _ => ?_
  refine .bind (.expect _ _) fun _ afterEnd _ => ?_
  exact .pure name

theorem traced_versionRest : Traced versionRest cursor := by
  refine .bind (.expect _ _) fun _ afterEquals _ => ?_
  refine .bind (.next _ _) fun literal afterLiteral _ => ?_
  split
  · exact .fail trivial
  · refine .bind (.expect _ _) fun _ afterEnd _ => ?_
    exact .pure _

theorem traced_importModifier : Traced importModifier cursor := by
  refine .bind (.eat _) fun isPublic afterPublic _ => ?_
  split
  · exact .pure _
  · refine .bind (.eat _) fun isWeak afterWeak _ => ?_
    split
    · exact .pure _
    · exact .pure none

theorem traced_importRest : Traced importRest cursor := by
  refine .bind traced_importModifier fun modifier afterModifier _ => ?_
  refine .bind (.word _ _) fun path afterPath _ => ?_
  refine .bind (.expect _ _) fun _ afterEnd _ => ?_
  exact .pure _

theorem traced_declaration (schema : Schema) (started : Bool) (comments : List String)
    (keyword : Option Keyword) (hSeen : cursor.seen ≠ []) :
    Traced (declaration schema started comments keyword) cursor := by
  unfold declaration
  split
  · exact .bind traced_packageRest fun name _ _ => .pure _
  · split
    · exact .fail trivial
    · exact .bind traced_versionRest fun version _ _ => .pure _
  · exact .bind traced_messageRest fun decl _ _ => .pure _
  · exact .bind traced_enumRest fun decl _ _ => .pure _
  · exact .bind (traced_bindOptionRest _) fun options _ _ => .pure _
  · exact .bind traced_importRest fun entry _ _ => .pure _
  · exact .bind traced_extendRest fun block _ _ => .pure _
  · exact .bind traced_serviceRest fun decl _ _ => .pure _
  · exact .rejectLast hSeen

theorem traced_statement (state : FileState) (head : List String × Token)
    (hSeen : cursor.seen ≠ []) : Traced (statement state head) cursor := by
  unfold statement
  split
  · exact .pure state
  · exact .bind (traced_declaration _ _ _ _ hSeen) fun grown _ _ => .pure _

/-- The run of a whole file, from any cursor, goes by primitive steps. -/
theorem traced_file (version : LanguageVersion) : Traced (file version) cursor := by
  refine .bind (.loop (fun _ => .statementHead) ?_ _ cursor) fun state _ _ => .pure _
  exact fun state head cursor hSeen => traced_statement state head hSeen

end Grammar
end ProtoIdl
