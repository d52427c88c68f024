import ProtoIdl.Grammar.File
import ProtoIdl.Proofs.Local.Settled
import ProtoIdl.Proofs.Parser.Yields

/-!
# The grammar on tokens with more tokens after them

Every construct that stands at the top level of a file is settled.  What is read inside the
body of a message is isolated first and needs no lemma.  A construct is firm if it ends with
a token that it requires; it is not if it ends where one more token was looked for.
-/

namespace ProtoIdl
namespace Grammar

open ProtoIdl.Parser

variable {cursor : Cursor} {firm : Bool}

/-! ## Option maps -/

theorem settled_entryKey (hSeen : cursor.seen ≠ []) (first : Token) :
    Settled (entryKey first) firm cursor := by
  unfold entryKey
  split
  · refine .bind (.word _ _) fun key afterKey _ => ?_
    refine .bind (.expect _ _) fun _ afterClose _ => ?_
    exact .pure key
  · split
    · exact .rejectLast hSeen _
    · exact .pure first

theorem settled_entryValue (options : OptionMap) (key : String) :
    Settled (entryValue options key) firm cursor := by
  refine .bind_atEnd .takeComments (fun _ => .bind_left (.next _ _)) fun _ afterComments _ => ?_
  refine .next_bind fun sign afterSign hSeen => ?_
  split
  · split
    · exact .fail _
    · refine .bind_atEnd .takeComments (fun _ => .bind_left (.next _ _)) fun _ afterComments _ => ?_
      refine .next_bind fun value afterValue hSeen => ?_
      split
      · exact .pure _
      · split
        · exact .rejectLast hSeen _
        · exact .pure _
  · split
    · exact .pure _
    · exact .rejectLast hSeen _

theorem settled_mapEntry (options : OptionMap) : Settled (mapEntry options) firm cursor := by
  refine .bind_atEnd .takeComments (fun _ => .bind_left (.next _ _)) fun _ afterComments _ => ?_
  refine .next_bind fun first afterFirst hSeen => ?_
  split
  · exact .pure _
  · split
    · exact .pure _
    · exact .bind (settled_entryKey hSeen first) fun key _ _ => settled_entryValue options key

theorem settled_optionMap_of_entries (hEntries : ∀ entered, cursor.Onward entered →
      Settled (entries ∅) true entered) : Settled optionMap true cursor := by
  refine .bind .enter fun _ entered hEnter => ?_
  refine .bind (hEntries entered (onward_of_ok hEnter)) fun inner afterInner _ => ?_
  refine .bind .leave fun _ afterLeave _ => ?_
  exact .pure inner

/-- The entries of an option map, nested maps included. -/
theorem settled_entries (options : OptionMap) (cursor : Cursor) :
    Settled (entries options) true cursor := by
  induction options, cursor using entries_induction with
  | entry options cursor ih =>
      rw [entries_eq]
      refine .bind (settled_mapEntry options) fun entry between hEntry => ?_
      have hLater := ih entry between hEntry
      cases entry with
      | close => exact .pure options
      | separator => exact hLater options between (.refl between)
      | literal key value =>
          exact .bind (.ofExcept _) fun grown after hRun =>
            hLater grown after (onward_of_ok hRun)
      | nested form key =>
          refine .bind (settled_optionMap_of_entries (hLater ∅)) fun inner afterInner hRun => ?_
          exact .bind (.ofExcept _) fun grown after hStore =>
            hLater grown after ((onward_of_ok hRun).trans (onward_of_ok hStore))

theorem settled_optionMap : Settled optionMap true cursor :=
  settled_optionMap_of_entries fun entered _ => settled_entries ∅ entered

/-! ## Options -/

/-- An option name in parentheses may go on after the last token. -/
theorem settled_optionName (context : String) : Settled (optionName context) false cursor := by
  refine .bind_atEnd (.eat _) (fun opened => ?_) fun opened afterOpened _ => ?_
  · split
    · exact .bind_left (.word _ _)
    · exact .word _ _
  · split
    · refine .bind (.word _ _) fun name afterName _ => ?_
      refine .bind (.expect _ _) fun _ afterClose _ => ?_
      refine .bind_atEnd (.takeIf _) (fun suffix => ?_) fun suffix afterSuffix _ => ?_
      · split <;> exact .pure _
      · split <;> exact .pure _
    · exact .word _ _

theorem atEnd_optionName (context : String) : AtEnd (optionName context) firm := by
  refine .bind_right (.eat _) fun opened => ?_
  split
  · exact .bind_left (.word _ _)
  · exact .word _ _

theorem settled_valueFrom (hSeen : cursor.seen ≠ []) (name context : String) (first : Token) :
    Settled (valueFrom name context first) true cursor := by
  have hAdmitted : ∀ (value : OptionValue) (later : Cursor),
      Settled (if admitsValue name value then pure value else fail (.invalidOptimizeFor first))
        true later := by
    intro value later
    split
    · exact .pure value
    · exact .fail _
  unfold valueFrom
  dsimp only
  split
  · have hMap : Settled (OptionValue.map <$> optionMap) true cursor := by
      rw [map_eq_pure_bind]
      exact .bind settled_optionMap fun inner _ _ => .pure _
    exact .bind hMap fun value later _ => hAdmitted value later
  · split
    · exact .bind (.rejectLast hSeen _) fun value later _ => hAdmitted value later
    · exact hAdmitted _ cursor

theorem settled_optionBinding (context : String) :
    Settled (optionBinding context) true cursor := by
  refine .bind_atEnd (settled_optionName _) (fun _ => .bind_left (.expect _ _))
    fun name afterName _ => ?_
  refine .bind (.expect _ _) fun _ afterEquals _ => ?_
  refine .bind ?_ fun value afterValue _ => .pure (name, value)
  exact .next_bind fun first _ hSeen => settled_valueFrom hSeen name context first

theorem settled_optionRest : Settled optionRest true cursor := by
  refine .bind (settled_optionBinding _) fun binding afterBinding _ => ?_
  refine .bind (.expect _ _) fun _ afterEnd _ => ?_
  exact .pure binding

theorem settled_bindOptionRest (options : OptionMap) :
    Settled (bindOptionRest options) firm cursor :=
  .of_firm <| .bind settled_optionRest fun binding _ _ =>
    .ofExcept (options.bind binding.1 binding.2)

theorem settled_fieldOption (options : OptionMap) :
    Settled (fieldOption options) false cursor := by
  have hName : ∀ second : String × OptionValue → Parser OptionMap,
      AtEnd (optionBinding "field options" >>= second) false :=
    fun _ => .bind_left (.bind_left (atEnd_optionName _))
  refine .bind_atEnd .takeComments (fun _ => hName _) fun _ afterComments _ => ?_
  refine .bind (settled_optionBinding _) fun binding afterBinding _ => ?_
  refine .bind (.ofExcept _) fun grown afterStore _ => ?_
  refine .bind_atEnd .takeComments (fun _ => .pure _) fun _ afterComments _ => ?_
  exact .pure grown

theorem settled_fieldOptions : Settled fieldOptions true cursor := by
  refine .bind (.expect _ _) fun _ afterOpen _ => ?_
  exact .commaList (fun options _ => settled_fieldOption options) _ _ _

theorem settled_optionalFieldOptions : Settled optionalFieldOptions false cursor := by
  refine .bind_atEnd .peek (fun ahead => ?_) fun ahead start _ => ?_
  · split
    · exact .bind_left (.expect _ _)
    · exact .pure ∅
  · split
    · exact .of_firm settled_fieldOptions
    · exact .pure ∅

/-! ## Enums -/

theorem settled_rangeEnd (interval : Numeral.Interval) (first max : Int)
    (expected context : String) :
    Settled (rangeEnd interval first max expected context) false cursor := by
  refine .bind_atEnd (.eat _) (fun further => ?_) fun further afterFurther _ => ?_
  · split
    · exact .bind_left (.next _ _)
    · exact .pure first
  · split
    · refine .bind (.next _ _) fun literal afterLiteral _ => ?_
      split
      · exact .pure max
      · exact .numeral _ _ _
    · exact .pure first

theorem settled_reservedRest (max : Int) (reserved : List Reserved) :
    Settled (reservedRest max reserved) firm cursor := by
  refine .commaList (fun reserved start => ?_) _ _ reserved
  have hEntry : Settled (reservedEntry max) false start := by
    refine .bind (.next _ _) fun literal afterLiteral _ => ?_
    split
    · exact .pure _
    · refine .bind (.numeral _ _ _) fun first afterFirst _ => ?_
      refine .bind_atEnd (settled_rangeEnd _ _ _ _ _) (fun _ => .pure _) fun last afterLast _ => ?_
      exact .pure _
  exact .bind_atEnd hEntry (fun _ => .pure _) fun entry _ _ => .pure _

/-- The shape of an enum value is told by three tokens, or the end is reported. -/
theorem settled_enumValueShape : Settled enumValueShape firm cursor := by
  by_cases hAhead : 2 < cursor.left
  · -- all three tokens are there, and more tokens do not change them
    refine .bind (.peekNth (by omega)) fun sign start hSign => ?_
    cases hSign
    refine .bind (.peekNth hAhead) fun terminator start hTerminator => ?_
    cases hTerminator
    split
    · exact .rejectEnd _ _
    · split
      · exact .rejectNth (by omega) _
      · split
        · exact .rejectNth hAhead _
        · exact .pure ()
  · -- one of them is missing, which is reported before any of them is looked at
    have hNone : cursor.peekNth? 2 = none := List.getElem?_eq_none (Nat.not_lt.mp hAhead)
    have hRun : enumValueShape.run cursor =
        .error (cursor.unterminated ";" "enum value") cursor := by
      simp only [enumValueShape, run_bind, peekNth, hNone]
      rfl
    refine ⟨fun hOk => ?_, fun hError => ?_⟩
    · rw [hRun] at hOk
      cases hOk
    · rw [hRun] at hError
      cases hError
      exact .inl ⟨_, _, rfl⟩

theorem settled_enumValueRest (hSeen : cursor.seen ≠ []) (comments : List String)
    (first : Token) : Settled (enumValueRest comments first) firm cursor := by
  refine .bind settled_enumValueShape fun _ between hShape => ?_
  have hSeen := (onward_of_ok hShape).seen_ne_nil hSeen
  refine .bind (.checkWord hSeen _ _) fun name afterName _ => ?_
  refine .bind (.expect _ _) fun _ afterEquals _ => ?_
  refine .bind (.next _ _) fun literal afterLiteral _ => ?_
  refine .bind (.numeral _ _ _) fun number afterNumber _ => ?_
  refine .bind_atEnd settled_optionalFieldOptions (fun _ => .bind_left (.expect _ _))
    fun options afterOptions _ => ?_
  refine .bind (.expect _ _) fun _ afterEnd _ => ?_
  exact .pure _

theorem settled_enumMember (decl : EnumDecl) (head : List String × Token)
    (hSeen : cursor.seen ≠ []) : Settled (enumMember decl head) firm cursor := by
  unfold enumMember
  split
  · exact .pure decl
  · split
    · exact .bind (settled_bindOptionRest _) fun options _ _ => .pure _
    · exact .bind (settled_reservedRest _ _) fun reserved _ _ => .pure _
    · exact .bind (settled_enumValueRest hSeen _ _) fun value _ _ => .ofExcept _

/-! ## Services -/

theorem settled_mapTypeRest : Settled mapTypeRest firm cursor := by
  refine .bind (.expect _ _) fun _ afterOpen _ => ?_
  refine .bind (.word _ _) fun key afterKey _ => ?_
  refine .bind (.expect _ _) fun _ afterComma _ => ?_
  refine .bind (.word _ _) fun value afterValue _ => ?_
  refine .bind (.expect _ _) fun _ afterClose _ => ?_
  exact .pure _

theorem atEnd_rpcType (context : String) : AtEnd (rpcType context) firm := by
  refine .bind_right (.eat _) fun isMap => ?_
  split
  · exact .bind_left (.bind_left (.expect _ _))
  · exact .bind_right (.eat _) fun repeated => .bind_left (.word _ _)

theorem settled_rpcType (context : String) : Settled (rpcType context) firm cursor := by
  refine .bind_atEnd (.eat _) (fun isMap => ?_) fun isMap afterMap _ => ?_
  · split
    · exact .bind_left (.bind_left (.expect _ _))
    · exact .bind_right (.eat _) fun repeated => .bind_left (.word _ _)
  · split
    · exact .bind settled_mapTypeRest fun type _ _ => .pure _
    · refine .bind_atEnd (.eat _) (fun _ => .bind_left (.word _ _))
        fun repeated afterRepeated _ => ?_
      refine .bind (.word _ _) fun type afterType _ => ?_
      exact .pure _

theorem atEnd_parameterName : AtEnd parameterName false := by
  refine .bind_right .peek fun ahead => ?_
  split
  · exact .pure none
  · exact .bind_left (.word _ _)

theorem settled_parameterName : Settled parameterName false cursor := by
  refine .bind_atEnd .peek (fun ahead => ?_) fun ahead start _ => ?_
  · split
    · exact .pure none
    · exact .bind_left (.word _ _)
  · split
    · exact .pure none
    · exact .bind (.word _ _) fun name _ _ => .pure _

theorem atEnd_rpcParameter (inputs : RpcInputs) : AtEnd (rpcParameter inputs) firm := by
  refine .bind_right .takeComments fun _ => ?_
  refine .bind_right (.eat _) fun stream => ?_
  exact .bind_left (atEnd_rpcType _)

theorem settled_rpcParameter (inputs : RpcInputs) :
    Settled (rpcParameter inputs) false cursor := by
  -- comments, `stream` and a name may be absent, so a run may end after any of them
  refine .bind_atEnd .takeComments (fun _ => .bind_right (.eat _)
      fun _ => .bind_left (atEnd_rpcType _)) fun _ afterComments _ => ?_
  refine .bind_atEnd (.eat _) (fun _ => .bind_left (atEnd_rpcType _)) fun stream afterStream _ => ?_
  refine .bind (settled_rpcType _) fun typed afterTyped _ => ?_
  refine .bind_atEnd .takeComments (fun _ => .bind_right atEnd_parameterName
      fun _ => .bind_right .takeComments fun _ => .pure _) fun _ afterComments _ => ?_
  refine .bind_atEnd settled_parameterName (fun _ => .bind_right .takeComments
      fun _ => .pure _) fun name afterName _ => ?_
  refine .bind_atEnd .takeComments (fun _ => .pure _) fun _ afterComments _ => ?_
  exact .pure _

theorem settled_rpcParameters : Settled rpcParameters false cursor := by
  have hEnd : ∀ closed : Bool, AtEnd (if closed = true then pure ⟨false, []⟩
      else commaList ")" "rpc parameters" rpcParameter ⟨false, []⟩) false := by
    intro closed
    split
    · exact .pure _
    · exact .bind_left (atEnd_rpcParameter _)
  refine .bind_atEnd .takeComments (fun _ => .bind_right (.eat _) hEnd) fun _ afterComments _ => ?_
  refine .bind_atEnd (.eat _) hEnd fun closed afterClosed _ => ?_
  split
  · exact .pure _
  · exact .commaList (fun inputs _ => settled_rpcParameter inputs) _ _ _

theorem settled_rpcBodyMember (options : OptionMap) (head : List String × Token)
    (hSeen : cursor.seen ≠ []) : Settled (rpcBodyMember options head) firm cursor := by
  unfold rpcBodyMember
  split
  · exact .pure options
  · split
    · exact settled_bindOptionRest options
    · exact .rejectLast hSeen _

/-- A semicolon may come after the body of a method. -/
theorem settled_rpcEnd : Settled rpcEnd false cursor := by
  refine .bind_atEnd (.eat _) (fun closed => ?_) fun closed afterClosed _ => ?_
  · split
    · exact .pure ∅
    · exact .bind_left (.expect _ _)
  · split
    · exact .pure ∅
    · refine .bind (.expect _ _) fun _ afterBrace _ => ?_
      refine .bind (.memberLoop (fun options head _ => settled_rpcBodyMember options head) _ _)
        fun options afterOptions _ => ?_
      refine .bind_atEnd (.eat _) (fun _ => .pure _) fun _ afterSemicolon _ => ?_
      exact .pure options

theorem settled_rpcRest (comments : List String) : Settled (rpcRest comments) false cursor := by
  refine .bind (.word _ _) fun name afterName _ => ?_
  refine .bind (.expect _ _) fun _ afterOpen _ => ?_
  refine .bind_atEnd settled_rpcParameters (fun _ => .bind_left (.expect _ _))
    fun inputs afterInputs _ => ?_
  refine .bind (.expect _ _) fun _ afterReturns _ => ?_
  refine .bind (.expect _ _) fun _ afterParen _ => ?_
  refine .bind_atEnd (.eat _) (fun _ => .bind_left (atEnd_rpcType _)) fun stream afterStream _ => ?_
  refine .bind (settled_rpcType _) fun typed afterTyped _ => ?_
  refine .bind (.expect _ _) fun _ afterClose _ => ?_
  exact .bind_atEnd settled_rpcEnd (fun _ => .pure _) fun options _ _ => .pure _

theorem settled_serviceMember (service : Service) (head : List String × Token)
    (hSeen : cursor.seen ≠ []) : Settled (serviceMember service head) false cursor := by
  have hMethod : Settled (rpcRest head.1 >>= fun method =>
      pure { service with methods := service.methods ++ [method] }) false cursor :=
    .bind_atEnd (settled_rpcRest _) (fun _ => .pure _) fun method _ _ => .pure _
  unfold serviceMember
  split
  · exact .pure service
  · split
    · exact .bind (settled_bindOptionRest _) fun options _ _ => .pure _
    · exact hMethod
    · exact hMethod
    · exact .rejectLast hSeen _

/-! ## Statements -/

theorem settled_packageRest : Settled packageRest firm cursor := by
  refine .bind (.word _ _) fun name afterName _ => ?_
  refine .bind (.expect _ _) fun _ afterEnd _ => ?_
  exact .pure name

theorem settled_versionRest : Settled versionRest firm cursor := by
  refine .bind (.expect _ _) fun _ afterEquals _ => ?_
  refine .bind (.next _ _) fun literal afterLiteral _ => ?_
  split
  · exact .fail _
  · refine .bind (.expect _ _) fun _ afterEnd _ => ?_
    exact .pure _

theorem settled_importModifier : Settled importModifier false cursor := by
  have hEnd : ∀ isWeak : Bool, AtEnd (if isWeak = true then pure (some ImportModifier.weak)
      else pure none) false := by
    intro isWeak
    split <;> exact .pure _
  refine .bind_atEnd (.eat _) (fun isPublic => ?_) fun isPublic afterPublic _ => ?_
  · split
    · exact .pure _
    · exact .bind_right (.eat _) hEnd
  · split
    · exact .pure _
    · refine .bind_atEnd (.eat _) hEnd fun isWeak afterWeak _ => ?_
      split <;> exact .pure _

theorem settled_importRest : Settled importRest firm cursor := by
  refine .bind_atEnd settled_importModifier (fun _ => .bind_left (.word _ _))
    fun modifier afterModifier _ => ?_
  refine .bind (.word _ _) fun path afterPath _ => ?_
  refine .bind (.expect _ _) fun _ afterEnd _ => ?_
  exact .pure _

theorem settled_block (kind : BlockKind) (body : String → Parser α) :
    Settled (block kind body) firm cursor := by
  refine .bind (.word _ _) fun name afterName _ => ?_
  refine .bind (.expect _ _) fun _ afterBrace _ => ?_
  refine .bind (.inside _ _) fun inner afterInner _ => ?_
  exact .pure _

theorem settled_messageRest : Settled messageRest firm cursor := by
  refine .bind (settled_block _ _) fun named afterNamed _ => ?_
  exact .pure named.2

theorem settled_extendRest : Settled extendRest firm cursor := by
  refine .bind (settled_block _ _) fun named afterNamed _ => ?_
  exact .pure _

end Grammar
end ProtoIdl
