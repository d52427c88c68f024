import ProtoIdl.Proofs.Comments.Members
import ProtoIdl.Proofs.Comments.Option
import ProtoIdl.Proofs.Parser.MessageLoop

/-!
# Enums, fields and messages, with and without comments

A declaration keeps the comments before it, and without them it is the same declaration
with an empty list of comments.
-/

namespace ProtoIdl
namespace Grammar

open ProtoIdl.Parser

variable {cursor : Cursor}

/-- An equals sign is no keyword. -/
theorem ofToken?_equals : Keyword.ofToken? "=" = none := by decide

/-- A number and perhaps options, up to the semicolon after them.  A comment is no number, and
one that hides the options hides the semicolon too. -/
theorem mirrored_numbered (interval : Numeral.Interval) (expected context what : String)
    {build : Int → OptionMap → α} {bareBuild : Int → OptionMap → β} {change : α → β}
    (hBuild : ∀ number options, change (build number options) = bareBuild number options) :
    Mirrored
      (do
        expect "=" context
        let literal ← next expected context
        let number ← numeral interval literal what
        let options ← optionalFieldOptions
        expect ";" context
        return build number options)
      (do
        expect "=" context
        let literal ← next expected context
        let number ← numeral interval literal what
        let options ← optionalFieldOptions
        expect ";" context
        return bareBuild number options) .level change cursor := by
  refine .value_bind (refuses_numeral_bind (.inr rfl) _) ?_ fun literal _ _ => ?_
  · intro comment after last bare answer hComment hRun
    exact absurd hRun (refuses_numeral_bind (.inl hComment) _ _ _ _)
  · refine .bind (.numeral _ _ _) fun number afterNumber _ => ?_
    refine .bind_of_balks mirrored_optionalFieldOptions
      (fun _ => (balks_expect (by decide) _ _).bind _ _) fun options _ _ => ?_
    refine .bind (.expect (by decide) (by decide) _) fun _ afterEnd _ => ?_
    exact .pure (hBuild number options)

/-! ## Enums -/

theorem mirrored_enumValueBody (comments : List String) (first : Token) :
    Mirrored (enumValueBody comments first) (enumValueBody [] first) .level
      EnumValue.withoutComments cursor := by
  refine .bind (.checkWord first _) fun name afterName _ => ?_
  exact mirrored_numbered _ _ _ _ fun _ _ => rfl

/-- A body that is read starts with an equals sign and a token that is not a comment. -/
theorem exists_of_run_enumValueBody {comments : List String} {first : Token} {value : EnumValue}
    {after : Cursor} (hRun : (enumValueBody comments first).run cursor = .ok value after) :
    ∃ (literal : Token) (later : List Token),
      cursor.rest = "=" :: literal :: later ∧ literal.isComment = false := by
  obtain ⟨name, between, hName, hRun⟩ := run_bind_eq_ok_iff.mp hRun
  have hStay : between = cursor := by
    unfold checkWord at hName
    split at hName
    · cases hName
      rfl
    · cases hName
  obtain ⟨rest, hRest, hRun⟩ := exists_of_run_expect_bind hRun
  obtain ⟨literal, later, hLater, hRun⟩ := exists_of_run_next_bind hRun
  refine ⟨literal, later, ?_, ?_⟩
  · rw [← hStay, hRest]
    exact congrArg _ hLater
  · cases hComment : literal.isComment with
    | false => rfl
    | true => exact absurd hRun (refuses_numeral_bind (.inl hComment) _ _ _ _)

/-- The shape of a value is looked for among its first three tokens. -/
theorem run_enumValueShape {literal terminator : Token} {later : List Token}
    (hRest : cursor.rest = "=" :: literal :: terminator :: later)
    (hTerminator : terminator = ";" ∨ terminator = "[") :
    enumValueShape.run cursor = .ok () cursor := by
  rcases hTerminator with rfl | rfl <;>
    simp [enumValueShape, run_bind, peekNth, Cursor.peekNth?, hRest]

/-- The third token ahead of a value of the right shape ends the value or starts its
options. -/
theorem exists_of_run_enumValueShape {after : Cursor} {answer : Unit}
    (hRun : enumValueShape.run cursor = .ok answer after) :
    after = cursor ∧ ∃ terminator, cursor.rest[2]? = some terminator ∧
      (terminator = ";" ∨ terminator = "[") := by
  simp only [enumValueShape, run_bind, peekNth, Cursor.peekNth?] at hRun
  cases hAhead : cursor.rest[2]? with
  | none =>
      rw [hAhead] at hRun
      cases hRun
  | some terminator =>
      rw [hAhead] at hRun
      dsimp only at hRun
      split at hRun
      · cases hRun
      · split at hRun
        · cases hRun
        · next hEnd =>
            cases hRun
            refine ⟨rfl, terminator, rfl, ?_⟩
            by_cases hSemicolon : terminator = ";"
            · exact .inl hSemicolon
            · exact .inr (by simpa [hSemicolon] using hEnd)

/-- The shape is looked for before anything is taken.  A comment among the three tokens
would be the number of the value. -/
theorem mirrored_enumValueRest (comments : List String) (first : Token) :
    Mirrored (enumValueRest comments first) (enumValueRest [] first) .level
      EnumValue.withoutComments cursor := by
  intro bareCursor hAligned value after hRun hLanding
  obtain ⟨_, between, hShape, hBody⟩ := run_bind_eq_ok_iff.mp hRun
  obtain ⟨rfl, terminator, hThird, hTerminator⟩ := exists_of_run_enumValueShape hShape
  obtain ⟨literal, later, hRest, hLiteral⟩ := exists_of_run_enumValueBody hBody
  obtain ⟨behind, rfl⟩ : ∃ behind, later = terminator :: behind := by
    rw [hRest] at hThird
    cases later with
    | nil => cases hThird
    | cons third behind =>
        cases hThird
        exact ⟨behind, rfl⟩
  -- none of the three tokens is a comment, so the second run has the same three ahead
  have hEnd : Token.isComment terminator = false := by
    rcases hTerminator with rfl | rfl <;> decide
  have hBare : bareCursor.rest =
      "=" :: literal :: terminator :: Token.withoutComments behind := by
    rw [hAligned.rest_eq, hRest, Token.withoutComments_cons (by decide),
      Token.withoutComments_cons hLiteral, Token.withoutComments_cons hEnd]
  have hBody := mirrored_enumValueBody comments first bareCursor hAligned value after hBody
    hLanding
  show Outcome _ _ value after ((enumValueShape >>= fun _ => enumValueBody [] first).run bareCursor)
  rwa [run_bind, run_enumValueShape hBare hTerminator]

/-- A value whose name is new is new without comments too. -/
theorem addEnumValue_withoutComments {decl grown : EnumDecl} {value : EnumValue}
    (hAdd : addEnumValue decl value = .ok grown) :
    addEnumValue decl.withoutComments value.withoutComments = .ok grown.withoutComments := by
  have hFound : (decl.withoutComments.value? value.withoutComments.name).isSome =
      (decl.value? value.name).isSome := by
    simp only [EnumDecl.value?, EnumDecl.withoutComments, EnumValue.withoutComments,
      List.find?_map, Option.isSome_map]
    rfl
  unfold addEnumValue at hAdd ⊢
  rw [hFound]
  split at hAdd
  · cases hAdd
  · next hNew =>
      cases hAdd
      rw [if_neg hNew]
      simp [EnumDecl.withoutComments]

theorem mirrored_enumMember (decl : EnumDecl) (comments : List String) (token : Token) :
    Mirrored (enumMember decl (comments, token)) (enumMember decl.withoutComments ([], token))
      .level EnumDecl.withoutComments cursor := by
  unfold enumMember
  dsimp only
  split
  · exact .pure rfl
  · split
    · exact .bind (mirrored_bindOptionRest _) fun options _ _ => .pure rfl
    · exact .bind (mirrored_reservedRest _ _) fun reserved _ _ => .pure rfl
    · refine .bind (mirrored_enumValueRest comments token) fun value afterValue _ => ?_
      exact .ofExcept fun grown hAdd => addEnumValue_withoutComments hAdd

/-- A semicolon after an enum may be left to what is around it. -/
theorem mirrored_enumRest : Mirrored enumRest enumRest .nearby EnumDecl.withoutComments cursor := by
  refine .bind (.word _ _) fun name afterName _ => ?_
  refine .bind (.expect (by decide) (by decide) _) fun _ braced _ => ?_
  refine .bind (.memberLoop (readsMembers_memberHead _) (fun _ _ => rfl) ?_ ?_
    (EnumDecl.new name)) fun decl afterDecl _ => .optionalSemicolon rfl
  · intro decl comments
    unfold enumMember
    dsimp only
    rw [if_neg (by decide), ofToken?_equals]
    exact .bind_left (.bind_right _ fun _ => .bind_left (refuses_checkWord (by decide) _) _) _
  · exact fun decl comments token start => (mirrored_enumMember decl comments token).weaken _

/-! ## Fields -/

/-- What stands before the name of a field, without its comments. -/
def FieldHead.withoutComments (head : FieldHead) : FieldHead :=
  { head with comments := [] }

theorem mirrored_mapTypeRest : Mirrored mapTypeRest mapTypeRest .level id cursor := by
  refine .bind (.expect (by decide) (by decide) _) fun _ afterOpen _ => ?_
  refine .bind (.word _ _) fun key afterKey _ => ?_
  refine .bind (.expect (by decide) (by decide) _) fun _ afterComma _ => ?_
  refine .bind (.word _ _) fun value afterValue _ => ?_
  refine .bind (.expect (by decide) (by decide) _) fun _ afterClose _ => ?_
  exact .pure rfl

theorem balks_fieldWord (slot : FieldSlot) (comment : Token) (hComment : comment.isComment = true)
    (landing : Landing) :
    (if some comment = some ";" then fail (.missing slot)
      else word slot.noun "message field" : Parser Token).Balks landing := by
  have hOther : some comment ≠ some ";" := by
    simpa using Token.ne_of_comment hComment (by decide)
  rw [if_neg hOther]
  exact balks_word _ _ _

theorem mirrored_fieldWord (slot : FieldSlot) :
    Mirrored (fieldWord slot) (fieldWord slot) .level id cursor := by
  refine .peek_bind (fun ahead => ?_) fun comment hComment =>
    balks_fieldWord slot comment hComment _
  split
  · exact .of_refuses (refuses_fail _)
  · exact .word _ _

theorem mirrored_ruledHead (comments : List String) (required repeated : Bool) :
    Mirrored (ruledHead comments required repeated) (ruledHead [] required repeated) .level
      FieldHead.withoutComments cursor := by
  refine .bind .takeComments fun _ afterComments _ => ?_
  refine .bind (mirrored_fieldWord _) fun type afterType _ => ?_
  exact .pure rfl

theorem mirrored_fieldHead (comments : List String) (first : Token) :
    Mirrored (fieldHead comments first) (fieldHead [] first) .level FieldHead.withoutComments
      cursor := by
  unfold fieldHead
  split
  · exact .bind mirrored_mapTypeRest fun type _ _ => .pure rfl
  · exact mirrored_ruledHead _ _ _
  · exact mirrored_ruledHead _ _ _
  · exact mirrored_ruledHead _ _ _
  · exact .bind (.checkWord _ _) fun type _ _ => .pure rfl

theorem mirrored_fieldRest (comments : List String) (first : Token) :
    Mirrored (fieldRest comments first) (fieldRest [] first) .level Field.withoutComments
      cursor := by
  refine .bind (mirrored_fieldHead comments first) fun head afterHead _ => ?_
  refine .bind (mirrored_fieldWord _) fun name afterName _ => ?_
  exact mirrored_numbered _ _ _ _ fun _ _ => rfl

/-- A field does not start with an equals sign. -/
theorem refuses_fieldRest_equals (comments : List String) : (fieldRest comments "=").Refuses := by
  refine .bind_left ?_ _
  unfold fieldHead
  rw [ofToken?_equals]
  exact .bind_left (refuses_checkWord (by decide) _) _

theorem mirrored_oneofMember (group : String) (fields : List Field) (comments : List String)
    (token : Token) :
    Mirrored (oneofMember group fields (comments, token))
      (oneofMember group (fields.map Field.withoutComments) ([], token)) .level
      (List.map Field.withoutComments) cursor := by
  unfold oneofMember
  dsimp only
  split
  · exact .pure rfl
  · split
    · exact .of_refuses (refuses_rejectLast _)
    · exact .of_refuses (refuses_rejectLast _)
    · exact .of_refuses (refuses_rejectLast _)
    · exact .of_refuses (refuses_rejectLast _)
    · refine .bind (mirrored_fieldRest comments token) fun field _ _ => .pure ?_
      simp [Field.withoutComments]

theorem mirrored_oneofRest (fields : List Field) :
    Mirrored (oneofRest fields) (oneofRest (fields.map Field.withoutComments)) .level
      (List.map Field.withoutComments) cursor := by
  refine .bind (.word _ _) fun group afterGroup _ => ?_
  refine .bind (.expect (by decide) (by decide) _) fun _ braced _ => ?_
  refine .memberLoop (readsMembers_memberHead _) (fun _ _ => rfl) ?_ ?_ fields
  · intro fields comments
    unfold oneofMember
    dsimp only
    rw [if_neg (by decide), ofToken?_equals]
    exact .bind_left (refuses_fieldRest_equals comments) _
  · exact fun fields comments token start =>
      (mirrored_oneofMember group fields comments token).weaken _

/-! ## Messages -/

theorem mirrored_messageMember (message : Message) (comments : List String) (token : Token) :
    Mirrored (messageMember message (comments, token))
      (messageMember message.withoutComments ([], token)) .nearby Message.withoutComments
      cursor := by
  rcases message with ⟨name, messages, enums, fields, blocks, extensions, reserved, bound, own⟩
  unfold messageMember
  dsimp only
  split
  · exact .pure rfl
  · split
    · refine .bind_pure mirrored_enumRest fun decl => ?_
      simp [Message.withoutComments, EnumDecl.withoutComments]
    · exact .bind (mirrored_extensionsRest _) fun ranges _ _ => .pure rfl
    · exact .bind (mirrored_reservedRest _ _) fun reserved _ _ => .pure rfl
    · exact .bind (mirrored_oneofRest _) fun fields _ _ => .pure rfl
    · exact .bind (mirrored_bindOptionRest _) fun options _ _ => .pure rfl
    · refine .bind (mirrored_fieldRest comments token) fun field _ _ => .pure ?_
      simp [Message.withoutComments]

/-- A block is added to a message with the comments before it, and without them to the
message without comments. -/
theorem addBlock_withoutComments (message : Message) (kind : BlockKind) (comments : List String)
    (name : String) (inner : Message) :
    (addBlock message kind comments name inner).withoutComments =
      addBlock message.withoutComments kind [] name inner.withoutComments := by
  rcases message with ⟨name, messages, enums, fields, blocks, extensions, reserved, bound, own⟩
  rcases inner with ⟨innerName, _, _, _, _, _, _, _, _⟩
  cases kind <;>
    simp [addBlock, Message.withoutComments, ExtendBlock.withoutComments,
      Message.levelWithoutComments_eq, ExtendBlock.levelWithoutComments_eq]

/-- A block is compared if its body is, wherever fewer tokens are ahead. -/
theorem mirrored_block (kind : BlockKind)
    (hMembers : ∀ (message : Message) (entered : Cursor), entered.left < cursor.left →
      Mirrored (members message) (members message.withoutComments) .level
        Message.withoutComments entered) :
    Mirrored (block kind fun name => members (.new name))
      (block kind fun name => members (.new name)) .level
      (fun named => (named.1, named.2.withoutComments)) cursor := by
  refine .bind (.word _ _) fun name afterName hName => ?_
  refine .bind (.expect (by decide) (by decide) _) fun _ afterBrace hBrace => ?_
  have hAhead := ((onward_of_ok hName).trans (onward_of_ok hBrace)).left_le
  have hInside : Mirrored (inside "message" (members (.new name)))
      (inside "message" (members (.new name))) .level Message.withoutComments afterBrace :=
    .inside (fun _ _ _ => rest_of_run_members) fun entered hEntered =>
      hMembers (.new name) entered (by omega)
  refine .bind hInside fun inner afterInner _ => ?_
  exact .pure rfl

/-- The members of a message, nested blocks included, by the tokens ahead. -/
theorem mirrored_members (message : Message) (cursor : Cursor) :
    Mirrored (members message) (members message.withoutComments) .level
      Message.withoutComments cursor := by
  induction hLeft : cursor.left using Nat.strongRecOn generalizing message cursor with
  | ind left ih =>
      intro bareCursor hAligned final after hRun _
      rw [members_eq_loop] at hRun ⊢
      refine outcome_loop readsMembers_statementHead (fun _ _ => rfl) ?_ ?_ message
        (.inl hAligned) hRun
      · intro message comments
        unfold messageStatement messageMember
        dsimp only
        rw [BlockKind.ofToken?, ofToken?_equals]
        dsimp only
        rw [if_neg (by decide)]
        exact .bind_left (refuses_fieldRest_equals comments) _
      · intro message comments token start hStart
        unfold messageStatement
        dsimp only
        split
        · exact mirrored_messageMember message comments token
        · next kind hKind =>
            refine .bind (mirrored_block kind fun inner entered hEntered => ?_)
              fun named afterNamed _ => ?_
            · exact ih entered.left (by omega) inner entered rfl
            · exact .pure (addBlock_withoutComments message kind comments named.1 named.2)

theorem mirrored_messageRest :
    Mirrored messageRest messageRest .level Message.withoutComments cursor :=
  .bind_pure (mirrored_block .message fun message entered _ => mirrored_members message entered)
    fun _ => rfl

theorem mirrored_extendRest :
    Mirrored extendRest extendRest .level ExtendBlock.withoutComments cursor :=
  .bind_pure (mirrored_block .extend fun message entered _ => mirrored_members message entered)
    fun _ => rfl

end Grammar
end ProtoIdl
