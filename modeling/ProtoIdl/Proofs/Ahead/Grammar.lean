import ProtoIdl.Grammar.Message
import ProtoIdl.Grammar.Service
import ProtoIdl.Proofs.Ahead.Lookahead
import ProtoIdl.Proofs.Parser.Yields

/-!
# How far the grammar looks ahead

The constructs of the grammar look no further than they take, with two exceptions.  The name of
a parameter may be absent, which is told by the token after it; and an enum value is told by
three tokens before any of them is taken.  What follows takes these tokens, so the constructs
around the two are none.  The body of a message is isolated first, so what is read in it does
not matter.
-/

namespace ProtoIdl
namespace Grammar

open ProtoIdl.Parser

variable {cursor : Cursor} {ahead : Nat}

/-! ## Option maps -/

theorem looksAhead_entryKey (first : Token) : (entryKey first).LooksAhead ahead cursor := by
  unfold entryKey
  split
  · refine .bind (.word _ _) fun key afterKey _ => ?_
    refine .bind (.expect _ _) fun _ afterClose _ => ?_
    exact .pure key
  · split
    · exact .rejectLast _
    · exact .pure first

theorem looksAhead_entryValue (options : OptionMap) (key : String) :
    (entryValue options key).LooksAhead ahead cursor := by
  refine .bind .takeComments fun _ afterComments _ => ?_
  refine .bind (.next _ _) fun sign afterSign _ => ?_
  split
  · split
    · exact .fail _
    · refine .bind .takeComments fun _ afterComments _ => ?_
      refine .bind (.next _ _) fun value afterValue _ => ?_
      split
      · exact .pure _
      · split
        · exact .rejectLast _
        · exact .pure _
  · split
    · exact .pure _
    · exact .rejectLast _

theorem looksAhead_mapEntry (options : OptionMap) :
    (mapEntry options).LooksAhead ahead cursor := by
  refine .bind .takeComments fun _ afterComments _ => ?_
  refine .bind (.next _ _) fun first afterFirst _ => ?_
  split
  · exact .pure _
  · split
    · exact .pure _
    · exact .bind (looksAhead_entryKey first) fun key _ _ => looksAhead_entryValue options key

theorem looksAhead_optionMap_of_entries
    (hEntries : ∀ entered, cursor.Onward entered → (entries ∅).LooksAhead ahead entered) :
    optionMap.LooksAhead ahead cursor := by
  refine .bind .enter fun _ entered hEnter => ?_
  refine .bind (hEntries entered (onward_of_ok hEnter)) fun inner afterInner _ => ?_
  refine .bind .leave fun _ afterLeave _ => ?_
  exact .pure inner

/-- The entries of an option map, nested maps included. -/
theorem looksAhead_entries (options : OptionMap) (cursor : Cursor) :
    (entries options).LooksAhead ahead cursor := by
  induction options, cursor using entries_induction with
  | entry options cursor ih =>
      rw [entries_eq]
      refine .bind (looksAhead_mapEntry options) fun entry between hEntry => ?_
      have hLater := ih entry between hEntry
      cases entry with
      | close => exact .pure options
      | separator => exact hLater options between (.refl between)
      | literal key value =>
          exact .bind (.ofExcept _) fun grown after hRun =>
            hLater grown after (onward_of_ok hRun)
      | nested form key =>
          refine .bind (looksAhead_optionMap_of_entries (hLater ∅)) fun inner afterInner hRun => ?_
          exact .bind (.ofExcept _) fun grown after hStore =>
            hLater grown after ((onward_of_ok hRun).trans (onward_of_ok hStore))

theorem looksAhead_optionMap : optionMap.LooksAhead ahead cursor :=
  looksAhead_optionMap_of_entries fun entered _ => looksAhead_entries ∅ entered

/-! ## Options -/

/-- The token that may continue an option name in parentheses is only taken if it is there. -/
theorem looksAhead_optionName (context : String) :
    (optionName context).LooksAhead ahead cursor := by
  refine .bind (.eat _) fun opened afterOpened _ => ?_
  split
  · refine .bind (.word _ _) fun name afterName _ => ?_
    refine .bind (.expect _ _) fun _ afterClose _ => ?_
    refine .bind (.takeIf _) fun suffix afterSuffix _ => ?_
    split <;> exact .pure _
  · exact .word _ _

theorem looksAhead_valueFrom (name context : String) (first : Token) :
    (valueFrom name context first).LooksAhead ahead cursor := by
  have hAdmitted : ∀ (value : OptionValue) (later : Cursor),
      (if admitsValue name value then pure value
        else fail (.invalidOptimizeFor first) : Parser OptionValue).LooksAhead ahead later := by
    intro value later
    split
    · exact .pure value
    · exact .fail _
  unfold valueFrom
  dsimp only
  split
  · exact .bind (looksAhead_optionMap.map _) fun value later _ => hAdmitted value later
  · split
    · exact .bind (.rejectLast _) fun value later _ => hAdmitted value later
    · exact hAdmitted _ cursor

theorem looksAhead_optionBinding (context : String) :
    (optionBinding context).LooksAhead ahead cursor := by
  refine .bind (looksAhead_optionName _) fun name afterName _ => ?_
  refine .bind (.expect _ _) fun _ afterEquals _ => ?_
  have hValue : (optionValue name context).LooksAhead ahead afterEquals :=
    .bind (.next _ _) fun first _ _ => looksAhead_valueFrom name context first
  refine .bind hValue fun value afterValue _ => ?_
  exact .pure (name, value)

theorem looksAhead_optionRest : optionRest.LooksAhead ahead cursor := by
  refine .bind (looksAhead_optionBinding _) fun binding afterBinding _ => ?_
  refine .bind (.expect _ _) fun _ afterEnd _ => ?_
  exact .pure binding

theorem looksAhead_bindOptionRest (options : OptionMap) :
    (bindOptionRest options).LooksAhead ahead cursor :=
  .bind looksAhead_optionRest fun binding _ _ => .ofExcept (options.bind binding.1 binding.2)

theorem looksAhead_fieldOption (options : OptionMap) :
    (fieldOption options).LooksAhead ahead cursor := by
  refine .bind .takeComments fun _ afterComments _ => ?_
  refine .bind (looksAhead_optionBinding _) fun binding afterBinding _ => ?_
  refine .bind (.ofExcept _) fun grown afterStore _ => ?_
  refine .bind .takeComments fun _ afterComments _ => ?_
  exact .pure grown

theorem looksAhead_fieldOptions : fieldOptions.LooksAhead 0 cursor := by
  refine .bind (.expect _ _) fun _ afterOpen _ => ?_
  exact .commaList (fun options _ => looksAhead_fieldOption options) _ _ _

theorem run_optionalFieldOptions (cursor : Cursor) :
    optionalFieldOptions.run cursor =
      if cursor.rest.head? = some "[" then fieldOptions.run cursor else .ok ∅ cursor := by
  rw [optionalFieldOptions, run_bind, List.head?_eq_getElem?]
  show (if cursor.peekNth? 0 = some "[" then fieldOptions else pure ∅).run cursor = _
  rw [Cursor.peekNth?]
  split <;> rfl

/-- A list that is missing is not read, and neither is one that was added. -/
theorem looksAhead_optionalFieldOptions : optionalFieldOptions.LooksAhead 0 cursor := by
  intro later value after hRun hLeft
  rw [run_optionalFieldOptions, Cursor.rest_extended] at hRun
  split at hRun
  · obtain ⟨stop, rfl, hShort⟩ := looksAhead_fieldOptions later value after hRun hLeft
    obtain ⟨rest, hRest, -⟩ := exists_of_run_expect_bind hShort
    exact ⟨stop, rfl, by rw [run_optionalFieldOptions, if_pos (by rw [hRest]; rfl), hShort]⟩
  · next hOther =>
      cases hRun
      have hNone : cursor.rest.head? ≠ some "[" := by
        intro hHead
        rw [List.head?_append, hHead] at hOther
        exact hOther rfl
      exact ⟨cursor, rfl, by rw [run_optionalFieldOptions, if_neg hNone]⟩

/-! ## Enums -/

theorem looksAhead_rangeEnd (interval : Numeral.Interval) (first max : Int)
    (expected context : String) :
    (rangeEnd interval first max expected context).LooksAhead ahead cursor := by
  refine .bind (.eat _) fun further afterFurther _ => ?_
  split
  · refine .bind (.next _ _) fun literal afterLiteral _ => ?_
    split
    · exact .pure max
    · exact .numeral _ _ _
  · exact .pure first

theorem looksAhead_reservedRest (max : Int) (reserved : List Reserved) :
    (reservedRest max reserved).LooksAhead 0 cursor := by
  refine .commaList (fun reserved start => ?_) _ _ reserved
  have hEntry : (reservedEntry max).LooksAhead 1 start := by
    refine .bind (.next _ _) fun literal afterLiteral _ => ?_
    split
    · exact .pure _
    · refine .bind (.numeral _ _ _) fun first afterFirst _ => ?_
      refine .bind (looksAhead_rangeEnd _ _ _ _ _) fun last afterLast _ => ?_
      exact .pure _
  exact .bind hEntry fun entry _ _ => .pure _

/-- The shape of an enum value is told by three tokens. -/
theorem looksAhead_enumValueShape : enumValueShape.LooksAhead 3 cursor := by
  refine .bind ((LooksAhead.peekNth 0).mono (by decide)) fun sign start _ => ?_
  refine .bind (.peekNth 2) fun terminator start _ => ?_
  split
  · exact .rejectEnd _ _
  · split
    · exact .rejectNth _ _
    · split
      · exact .rejectNth _ _
      · exact .pure ()

/-- An enum value goes on with an equals sign, a number and, at last, a semicolon. -/
theorem enumValueBody_takes {comments : List String} {first : Token} {value : EnumValue}
    {after : Cursor} (hRun : (enumValueBody comments first).run cursor = .ok value after) :
    after.left + 3 ≤ cursor.left := by
  obtain ⟨name, start, hName, hRun⟩ := run_bind_eq_ok_iff.mp hRun
  obtain ⟨_, afterSign, hSign, hRun⟩ := run_bind_eq_ok_iff.mp hRun
  obtain ⟨literal, afterNumber, hNumber, hRun⟩ := run_bind_eq_ok_iff.mp hRun
  obtain ⟨number, between, hValue, hRun⟩ := run_bind_eq_ok_iff.mp hRun
  obtain ⟨options, afterOptions, hOptions, hRun⟩ := run_bind_eq_ok_iff.mp hRun
  obtain ⟨_, afterSemicolon, hSemicolon, hDone⟩ := run_bind_eq_ok_iff.mp hRun
  have hFirst := (onward_of_ok hName).left_le
  have hSecond := Consumes.expect _ _ _ _ _ hSign trivial
  have hThird := next_consumes _ _ _ _ _ hNumber trivial
  have hFourth := ((onward_of_ok hValue).trans (onward_of_ok hOptions)).left_le
  have hFifth := Consumes.expect _ _ _ _ _ hSemicolon trivial
  have hLast := (onward_of_ok hDone).left_le
  omega

theorem looksAhead_enumValueRest (comments : List String) (first : Token) :
    (enumValueRest comments first).LooksAhead 0 cursor := by
  -- the body takes at least as many tokens as the shape has looked at
  refine .bind_takes looksAhead_enumValueShape
    (fun _ start answer last hRun => enumValueBody_takes hRun) fun _ afterShape _ => ?_
  refine .bind (.checkWord _ _) fun name afterName _ => ?_
  refine .bind (.expect _ _) fun _ afterEquals _ => ?_
  refine .bind (.next _ _) fun literal afterLiteral _ => ?_
  refine .bind (.numeral _ _ _) fun number afterNumber _ => ?_
  refine .bind looksAhead_optionalFieldOptions fun options afterOptions _ => ?_
  refine .bind (.expect _ _) fun _ afterEnd _ => ?_
  exact .pure _

theorem looksAhead_enumMember (decl : EnumDecl) (head : List String × Token) :
    (enumMember decl head).LooksAhead 0 cursor := by
  unfold enumMember
  split
  · exact .pure decl
  · split
    · exact .bind (looksAhead_bindOptionRest _) fun options _ _ => .pure _
    · exact .bind (looksAhead_reservedRest _ _) fun reserved _ _ => .pure _
    · exact .bind (looksAhead_enumValueRest _ _) fun value _ _ => .ofExcept _

/-! ## Services -/

theorem looksAhead_mapTypeRest : mapTypeRest.LooksAhead ahead cursor := by
  refine .bind (.expect _ _) fun _ afterOpen _ => ?_
  refine .bind (.word _ _) fun key afterKey _ => ?_
  refine .bind (.expect _ _) fun _ afterComma _ => ?_
  refine .bind (.word _ _) fun value afterValue _ => ?_
  refine .bind (.expect _ _) fun _ afterClose _ => ?_
  exact .pure _

theorem looksAhead_rpcType (context : String) : (rpcType context).LooksAhead ahead cursor := by
  refine .bind (.eat _) fun isMap afterMap _ => ?_
  split
  · exact .bind looksAhead_mapTypeRest fun type _ _ => .pure _
  · refine .bind (.eat _) fun repeated afterRepeated _ => ?_
    refine .bind (.word _ _) fun type afterType _ => ?_
    exact .pure _

/-- A name that is absent is told by the token after it. -/
theorem looksAhead_parameterName : parameterName.LooksAhead 1 cursor := by
  refine .bind .peek fun found start _ => ?_
  split
  · exact .pure none
  · exact .bind (.word _ _) fun name _ _ => .pure _

theorem looksAhead_rpcParameter (inputs : RpcInputs) :
    (rpcParameter inputs).LooksAhead 1 cursor := by
  refine .bind .takeComments fun _ afterComments _ => ?_
  refine .bind (.eat _) fun stream afterStream _ => ?_
  refine .bind (looksAhead_rpcType _) fun typed afterTyped _ => ?_
  refine .bind .takeComments fun _ afterComments _ => ?_
  refine .bind looksAhead_parameterName fun name afterName _ => ?_
  refine .bind .takeComments fun _ afterComments _ => ?_
  exact .pure _

theorem looksAhead_rpcParameters : rpcParameters.LooksAhead 0 cursor := by
  refine .bind .takeComments fun _ afterComments _ => ?_
  refine .bind (.eat _) fun closed afterClosed _ => ?_
  split
  · exact .pure _
  · exact .commaList (fun inputs _ => looksAhead_rpcParameter inputs) _ _ _

theorem looksAhead_rpcBodyMember (options : OptionMap) (head : List String × Token) :
    (rpcBodyMember options head).LooksAhead ahead cursor := by
  unfold rpcBodyMember
  split
  · exact .pure options
  · split
    · exact looksAhead_bindOptionRest options
    · exact .rejectLast _

/-- A semicolon may come after the body of a method. -/
theorem looksAhead_rpcEnd : rpcEnd.LooksAhead 0 cursor := by
  refine .bind (.eat _) fun closed afterClosed _ => ?_
  split
  · exact .pure ∅
  · refine .bind (.expect _ _) fun _ afterBrace _ => ?_
    refine .bind (.memberLoop (fun options head _ => looksAhead_rpcBodyMember options head) _ _)
      fun options afterOptions _ => ?_
    refine .bind (.eat _) fun _ afterSemicolon _ => ?_
    exact .pure options

theorem looksAhead_rpcRest (comments : List String) : (rpcRest comments).LooksAhead 0 cursor := by
  refine .bind (.word _ _) fun name afterName _ => ?_
  refine .bind (.expect _ _) fun _ afterOpen _ => ?_
  refine .bind looksAhead_rpcParameters fun inputs afterInputs _ => ?_
  refine .bind (.expect _ _) fun _ afterReturns _ => ?_
  refine .bind (.expect _ _) fun _ afterParen _ => ?_
  refine .bind (.eat _) fun stream afterStream _ => ?_
  refine .bind (looksAhead_rpcType _) fun typed afterTyped _ => ?_
  refine .bind (.expect _ _) fun _ afterClose _ => ?_
  refine .bind looksAhead_rpcEnd fun options afterOptions _ => ?_
  exact .pure _

theorem looksAhead_serviceMember (service : Service) (head : List String × Token) :
    (serviceMember service head).LooksAhead 0 cursor := by
  have hMethod : (rpcRest head.1 >>= fun method =>
      pure { service with methods := service.methods ++ [method] }).LooksAhead 0 cursor :=
    .bind (looksAhead_rpcRest _) fun method _ _ => .pure _
  unfold serviceMember
  split
  · exact .pure service
  · split
    · exact .bind (looksAhead_bindOptionRest _) fun options _ _ => .pure _
    · exact hMethod
    · exact hMethod
    · exact .rejectLast _

/-! ## Blocks -/

theorem looksAhead_block (kind : BlockKind) (body : String → Parser α) :
    (block kind body).LooksAhead ahead cursor := by
  refine .bind (.word _ _) fun name afterName _ => ?_
  refine .bind (.expect _ _) fun _ afterBrace _ => ?_
  refine .bind (.inside _ _) fun inner afterInner _ => ?_
  exact .pure _

theorem looksAhead_messageRest : messageRest.LooksAhead ahead cursor := by
  refine .bind (looksAhead_block _ _) fun named afterNamed _ => ?_
  exact .pure named.2

theorem looksAhead_extendRest : extendRest.LooksAhead ahead cursor := by
  refine .bind (looksAhead_block _ _) fun named afterNamed _ => ?_
  exact .pure _

end Grammar
end ProtoIdl
