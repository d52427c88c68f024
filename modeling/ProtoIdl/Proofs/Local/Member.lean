import ProtoIdl.Proofs.Local.Statement

/-!
# Members on tokens with more tokens after them

A member of a message that is read to the last token is read in the same way from a longer list,
except that an enum takes a semicolon that comes next.  The members of a message are statements
in this respect, and a body that stops at the end of the tokens goes on from there in a longer
list.
-/

namespace ProtoIdl
namespace Grammar

open ProtoIdl.Parser

variable {cursor : Cursor} {firm : Bool}

/-! ## Fields -/

theorem atEnd_fieldWord (slot : FieldSlot) : AtEnd (fieldWord slot) firm := by
  have hWord : AtEnd (word slot.noun "message field") firm := .word _ _
  intro cursor hRest
  have hNone : cursor.peekNth? 0 = none := by simp [Cursor.peekNth?, hRest]
  have hRun : (fieldWord slot).run cursor = (word slot.noun "message field").run cursor := by
    simp only [fieldWord, peek, peekNth, run_bind, hNone]
    rfl
  rw [hRun]
  exact hWord cursor hRest

/-- The type or the name of a field is there, or a semicolon is, or the end is reported. -/
theorem settled_fieldWord (slot : FieldSlot) : Settled (fieldWord slot) firm cursor := by
  by_cases hAhead : 0 < cursor.left
  · refine .bind (.peekNth hAhead) fun ahead start _ => ?_
    split
    · exact .fail _
    · exact .word _ _
  · have hRest : cursor.rest = [] := List.length_eq_zero_iff.mp (Nat.eq_zero_of_not_pos hAhead)
    have hEnd : AtEnd (fieldWord slot) true := atEnd_fieldWord slot
    have hOutcome := hEnd cursor hRest
    refine ⟨fun hOk => ?_, fun hError => ?_⟩
    · rw [hOk] at hOutcome
      cases hOutcome
    · rw [hError] at hOutcome
      exact .inl hOutcome

theorem settled_ruledHead (comments : List String) (required repeated : Bool) :
    Settled (ruledHead comments required repeated) firm cursor := by
  refine .bind_atEnd .takeComments (fun _ => .bind_left (atEnd_fieldWord _))
    fun _ afterComments _ => ?_
  refine .bind (settled_fieldWord _) fun type afterType _ => ?_
  exact .pure _

theorem settled_fieldHead (hSeen : cursor.seen ≠ []) (comments : List String) (first : Token) :
    Settled (fieldHead comments first) firm cursor := by
  unfold fieldHead
  split
  · exact .bind settled_mapTypeRest fun type _ _ => .pure _
  · exact settled_ruledHead _ _ _
  · exact settled_ruledHead _ _ _
  · exact settled_ruledHead _ _ _
  · exact .bind (.checkWord hSeen _ _) fun type _ _ => .pure _

theorem settled_fieldRest (hSeen : cursor.seen ≠ []) (comments : List String) (first : Token) :
    Settled (fieldRest comments first) firm cursor := by
  refine .bind (settled_fieldHead hSeen _ _) fun head afterHead _ => ?_
  refine .bind (settled_fieldWord _) fun name afterName _ => ?_
  refine .bind (.expect _ _) fun _ afterEquals _ => ?_
  refine .bind (.next _ _) fun literal afterLiteral _ => ?_
  refine .bind (.numeral _ _ _) fun tag afterTag _ => ?_
  refine .bind_atEnd settled_optionalFieldOptions (fun _ => .bind_left (.expect _ _))
    fun options afterOptions _ => ?_
  refine .bind (.expect _ _) fun _ afterEnd _ => ?_
  exact .pure _

theorem settled_oneofMember (group : String) (fields : List Field) (head : List String × Token)
    (hSeen : cursor.seen ≠ []) : Settled (oneofMember group fields head) firm cursor := by
  unfold oneofMember
  split
  · exact .pure fields
  · split
    · exact .rejectLast hSeen _
    · exact .rejectLast hSeen _
    · exact .rejectLast hSeen _
    · exact .rejectLast hSeen _
    · exact .bind (settled_fieldRest hSeen _ _) fun field _ _ => .pure _

theorem settled_oneofRest (fields : List Field) : Settled (oneofRest fields) firm cursor := by
  refine .bind (.word _ _) fun group afterGroup _ => ?_
  refine .bind (.expect _ _) fun _ afterBrace _ => ?_
  exact .memberLoop (fun fields head _ => settled_oneofMember group fields head) _ _

theorem settled_extensionsRest (ranges : List ExtensionRange) :
    Settled (extensionsRest ranges) firm cursor := by
  refine .commaList (fun ranges start => ?_) _ _ ranges
  have hRange : Settled extensionRange false start := by
    refine .bind (.next _ _) fun literal afterLiteral _ => ?_
    refine .bind (.numeral _ _ _) fun first afterFirst _ => ?_
    refine .bind_atEnd (settled_rangeEnd _ _ _ _ _) (fun _ => .pure _) fun last afterLast _ => ?_
    exact .pure _
  exact .bind_atEnd hRange (fun _ => .pure _) fun range _ _ => .pure _

/-! ## Members -/

theorem closed_messageMember (message : Message) (head : List String × Token)
    (hSeen : cursor.seen ≠ []) : Closed (messageMember message head) cursor := by
  -- all but enums end with a token that they require
  unfold messageMember
  split
  · exact .of_settled (.pure message)
  · split
    · exact .map closed_enumRest _
    · exact .of_settled (.bind (settled_extensionsRest _) fun ranges _ _ => .pure _)
    · exact .of_settled (.bind (settled_reservedRest _ _) fun reserved _ _ => .pure _)
    · exact .of_settled (.bind (settled_oneofRest _) fun fields _ _ => .pure _)
    · exact .of_settled (.bind (settled_bindOptionRest _) fun options _ _ => .pure _)
    · exact .of_settled (.bind (settled_fieldRest hSeen _ _) fun field _ _ => .pure _)

theorem closed_messageStatement (message : Message) (head : List String × Token)
    (hSeen : cursor.seen ≠ []) : Closed (messageStatement message head) cursor := by
  unfold messageStatement
  split
  · exact closed_messageMember message head hSeen
  · exact .of_settled (.bind (settled_block _ _) fun named _ _ => .pure _)

/-! ## Bodies -/

/-- The error of members that are read to an error stays the same in a longer list, unless it
says that the tokens end. -/
theorem fails_members_extended {message : Message} {after : Cursor} {fault : ParseError}
    (hRun : (members message).run cursor = .error fault after) :
    fault.EndsAt cursor.stop ∨
      ∀ more, ((members message).run (cursor.extended more)).Fails fault := by
  rw [members_eq_loop] at hRun ⊢
  exact fails_statementLoop_extended (fun message head _ => closed_messageStatement message head)
    hRun

/-- Members that are read to the last token are read on from there in a longer list. -/
theorem run_members_extended {message final : Message} {last : Cursor}
    (hRun : (members message).run cursor = .ok final last)
    (hLast : ∀ token, cursor.rest.getLast? = some token → token.isComment = false)
    (more : List Token) :
    (members message).run (cursor.extended more) = (members final).run (last.extended more) := by
  rw [members_eq_loop] at hRun
  rw [members_eq_loop, members_eq_loop]
  exact run_statementLoop_extended (fun message head _ => closed_messageStatement message head)
    (fun _ => rfl) hRun hLast more

end Grammar
end ProtoIdl
