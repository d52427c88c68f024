import ProtoIdl.Grammar.Message
import ProtoIdl.Grammar.Service
import ProtoIdl.Proofs.Bracket.Option

/-!
# Brackets of declarations

The shape of the tokens of each declaration after its keyword.  Ranges, fields, enums and
services are statements; what a list of their members takes is enclosed.
-/

namespace ProtoIdl
namespace Grammar

open ProtoIdl.Parser

variable {cursor : Cursor}

/-! ## Ranges -/

theorem spans_rangeEnd (interval : Numeral.Interval) (first max : Int)
    (expected context : String) :
    Spans (rangeEnd interval first max expected context) (fun _ used => Inline used) cursor := by
  refine .eat_bind (fun _ => ?_) fun _ => ?_
  · rw [if_pos rfl]
    refine .next_bind fun literal _ => ?_
    split
    · next hMax =>
        subst hMax
        exact .pure (.plain (Keyword.isInline_text _) (.plain (Keyword.isInline_text _) .nil))
    · refine .mono (.numeral _ _ _) ?_
      rintro value used ⟨rfl, hValue⟩
      exact .plain (Keyword.isInline_text _) (.plain (Token.isInline_of_within? hValue) .nil)
  · rw [if_neg (by decide)]
    exact .pure .nil

theorem spans_extensionRange : Spans extensionRange (fun _ used => Inline used) cursor := by
  refine .next_bind fun literal _ => ?_
  refine .numeral_bind fun first _ hValue => ?_
  refine .bind (spans_rangeEnd _ _ _ _ _) fun last used _ _ hUsed => .pure ?_
  exact .plain (Token.isInline_of_within? hValue) (by simpa using hUsed)

theorem spans_extensionsRest (ranges : List ExtensionRange) :
    Spans (extensionsRest ranges) (fun _ used => Statement used) cursor := by
  refine .mono (spans_commaList (fun ranges start => ?_) (fun _ _ => Inline.comma) _ _ _)
    fun _ _ hUsed => hUsed.statement
  exact .returning spans_extensionRange

theorem spans_reservedEntry (max : Int) :
    Spans (reservedEntry max) (fun _ used => Inline used) cursor := by
  refine .next_bind fun literal _ => ?_
  split
  · next hQuoted => exact .pure (.plain (Token.isInline_of_startsQuoted hQuoted) .nil)
  · refine .numeral_bind fun first _ hValue => ?_
    refine .bind (spans_rangeEnd _ _ _ _ _) fun last used _ _ hUsed => .pure ?_
    exact .plain (Token.isInline_of_within? hValue) (by simpa using hUsed)

theorem spans_reservedRest (max : Int) (reserved : List Reserved) :
    Spans (reservedRest max reserved) (fun _ used => Statement used) cursor := by
  refine .mono (spans_commaList (fun reserved start => ?_) (fun _ _ => Inline.comma) _ _ _)
    fun _ _ hUsed => hUsed.statement
  exact .returning (spans_reservedEntry max)

/-! ## Fields -/

theorem spans_mapTypeRest : Spans mapTypeRest (fun _ used => Inline used) cursor := by
  refine .expect_bind fun _ => ?_
  refine .word_bind fun key _ hKey => ?_
  refine .expect_bind fun _ => ?_
  refine .word_bind fun value _ hValue => ?_
  refine .expect_bind fun _ => .pure ?_
  have hInner : Enclosed [key, ",", value] :=
    .plain (Token.isInline_of_isWordLike hKey).1
      (.plain (by decide) (.plain (Token.isInline_of_isWordLike hValue).1 .nil))
  exact .group .angle (by decide) hInner .nil

theorem spans_fieldWord (slot : FieldSlot) :
    Spans (fieldWord slot) (fun _ used => Inline used) cursor := by
  refine .peekNth_bind fun ahead _ => ?_
  split
  · exact .fail _
  · refine .mono (.word _ _) ?_
    rintro name used ⟨rfl, hName⟩
    exact .plain (Token.isInline_of_isWordLike hName) .nil

theorem spans_ruledHead (comments : List String) (required repeated : Bool) :
    Spans (ruledHead comments required repeated) (fun _ used => Inline used) cursor := by
  refine .bind .takeComments fun _ more _ _ hMore => ?_
  refine .bind (spans_fieldWord .type) fun type used _ _ hUsed => .pure ?_
  rw [List.append_nil]
  exact (Inline.of_comments hMore).append hUsed

/-- A word, and what follows it before the name of a field. -/
theorem spans_fieldHead (comments : List String) (first : Token) :
    Spans (fieldHead comments first) (fun _ used => first.isWordLike = true ∧ Inline used)
      cursor := by
  have hRuled : ∀ required repeated (keyword : Keyword), Keyword.ofToken? first = some keyword →
      Spans (ruledHead comments required repeated)
        (fun _ used => first.isWordLike = true ∧ Inline used) cursor := by
    intro required repeated keyword hFirst
    exact .mono (spans_ruledHead _ _ _) fun _ _ hUsed =>
      ⟨Keyword.isWordLike_of_ofToken? hFirst, hUsed⟩
  unfold fieldHead
  split
  · next hFirst =>
      refine .bind spans_mapTypeRest fun type used _ _ hUsed => .pure ?_
      exact ⟨Keyword.isWordLike_of_ofToken? hFirst, by rwa [List.append_nil]⟩
  · next hFirst => exact hRuled _ _ _ hFirst
  · next hFirst => exact hRuled _ _ _ hFirst
  · next hFirst => exact hRuled _ _ _ hFirst
  · refine .bind (.checkWord _ _) fun type used _ _ hUsed => .pure ?_
    obtain ⟨rfl, rfl, hType⟩ := hUsed
    exact ⟨hType, .nil⟩

theorem spans_fieldRest (comments : List String) (first : Token) :
    Spans (fieldRest comments first) (fun _ used => IsMember first used) cursor := by
  refine .bind (spans_fieldHead comments first) fun head before _ _ hBefore => ?_
  obtain ⟨hFirst, hHead⟩ := hBefore
  refine .bind (spans_fieldWord _) fun name used _ _ hName => ?_
  refine .expect_bind fun _ => ?_
  refine .next_bind fun literal _ => ?_
  refine .numeral_bind fun tag _ hValue => ?_
  refine .bind spans_optionalFieldOptions fun options list _ _ hOptions => ?_
  refine .expect_bind fun _ => .pure ?_
  have hNumber : Statement ("=" :: literal :: (list ++ [";"])) :=
    .plain (by decide) (.plain (Token.isInline_of_within? hValue)
      (hOptions.statement Ending.stop.statement))
  exact .inr ⟨hFirst, by simpa using hHead.statement (hName.statement hNumber)⟩

theorem spans_oneofMember (group : String) (fields : List Field) (head : List String × Token) :
    Spans (oneofMember group fields head) (fun _ used => IsMember head.2 used) cursor := by
  unfold oneofMember
  split
  · next hEmpty => exact .pure (.inl ⟨hEmpty, rfl⟩)
  · split
    case h_5 =>
      exact .returning (spans_fieldRest head.1 head.2)
    all_goals exact .rejectLast _

/-- A named body in braces, with a semicolon after it or without. -/
theorem statement_of_body {name : Token} {body rest : List Token} (hName : name.isWordLike = true)
    (hBody : EndsWith Token.closeBrace Enclosed body) (hRest : rest = [] ∨ rest = [";"]) :
    Statement (name :: Token.openBrace :: (body ++ rest)) :=
  .plain (Token.isInline_of_isWordLike hName) (hBody.ending hRest).statement

theorem spans_oneofRest (fields : List Field) :
    Spans (oneofRest fields) (fun _ used => Statement used) cursor := by
  refine .word_bind fun group _ hGroup => ?_
  refine .expect_bind fun _ => ?_
  refine .mono (spans_memberLoop _ (fun fields head _ => spans_oneofMember group fields head) _)
    fun _ used hUsed => ?_
  simpa using statement_of_body hGroup hUsed (.inl rfl)

/-! ## Enums -/

theorem spans_enumValueShape : Spans enumValueShape (fun _ used => used = []) cursor := by
  refine .peekNth_bind fun sign _ => ?_
  refine .peekNth_bind fun terminator _ => ?_
  cases terminator with
  | none => exact .rejectEnd _ _
  | some terminator =>
      dsimp only
      split
      · exact .rejectNth _ _
      · split
        · exact .rejectNth _ _
        · exact .pure rfl

theorem spans_enumValueRest (comments : List String) (first : Token) :
    Spans (enumValueRest comments first) (fun _ used => IsMember first used) cursor := by
  refine .bind spans_enumValueShape fun _ used _ _ hUsed => ?_
  subst hUsed
  refine .bind (.checkWord _ _) fun name used _ _ hUsed => ?_
  obtain ⟨rfl, rfl, hName⟩ := hUsed
  refine .expect_bind fun _ => ?_
  refine .next_bind fun literal _ => ?_
  refine .numeral_bind fun number _ hValue => ?_
  refine .bind spans_optionalFieldOptions fun options used _ _ hOptions => ?_
  refine .expect_bind fun _ => .pure ?_
  exact .inr ⟨hName, .plain (by decide) (.plain (Token.isInline_of_within? hValue)
    (hOptions.statement Ending.stop.statement))⟩

theorem spans_enumMember (decl : EnumDecl) (head : List String × Token) :
    Spans (enumMember decl head) (fun _ used => IsMember head.2 used) cursor := by
  unfold enumMember
  split
  · next hEmpty => exact .pure (.inl ⟨hEmpty, rfl⟩)
  · split
    · next hFirst =>
        exact .returning (.mono (spans_bindOptionRest _) fun _ _ => .of_keyword hFirst)
    · next hFirst =>
        exact .returning (.mono (spans_reservedRest _ _) fun _ _ => .of_keyword hFirst)
    · refine .bind (spans_enumValueRest head.1 head.2) fun value used _ _ hUsed => ?_
      refine .mono (.ofExcept _) ?_
      rintro grown more ⟨rfl, -⟩
      rwa [List.append_nil]

/-- What a semicolon may follow. -/
theorem rest_of_eat {taken : Bool} {used : List Token}
    (hUsed : taken = true ∧ used = [";"] ∨ taken = false ∧ used = []) :
    used = [] ∨ used = [";"] := by
  rcases hUsed with ⟨-, hUsed⟩ | ⟨-, hUsed⟩
  · exact .inr hUsed
  · exact .inl hUsed

theorem spans_enumRest : Spans enumRest (fun _ used => Statement used) cursor := by
  refine .word_bind fun name _ hName => ?_
  refine .expect_bind fun _ => ?_
  refine .bind (spans_memberLoop _ (fun decl head _ => spans_enumMember decl head) _)
    fun decl body _ _ hBody => ?_
  refine .bind (.eat _) fun taken stop _ _ hStop => .pure ?_
  simpa using statement_of_body hName hBody (rest_of_eat hStop)

/-! ## Services -/

theorem spans_rpcType (context : String) :
    Spans (rpcType context) (fun _ used => Inline used) cursor := by
  refine .eat_bind (fun _ => ?_) fun _ => ?_
  · rw [if_pos rfl]
    refine .bind spans_mapTypeRest fun type used _ _ hUsed => .pure ?_
    exact .plain (Keyword.isInline_text _) (by simpa using hUsed)
  · rw [if_neg (by decide)]
    refine .bind (.eat _) fun repeated before _ _ hBefore => ?_
    refine .word_bind fun type _ hType => .pure ?_
    have hWord : Inline [type] := .plain (Token.isInline_of_isWordLike hType) .nil
    rcases hBefore with ⟨-, rfl⟩ | ⟨-, rfl⟩
    · exact .plain (Keyword.isInline_text _) hWord
    · exact hWord

theorem spans_parameterName : Spans parameterName (fun _ used => Inline used) cursor := by
  refine .peekNth_bind fun ahead _ => ?_
  split
  · exact .pure .nil
  · refine .word_bind fun name _ hName => .pure ?_
    exact .plain (Token.isInline_of_isWordLike hName) .nil

/-- The keyword `stream` may stand before a type. -/
theorem inline_of_eat {taken : Bool} {keyword : Keyword} {used : List Token}
    (hUsed : taken = true ∧ used = [keyword.text] ∨ taken = false ∧ used = []) : Inline used := by
  rcases hUsed with ⟨-, rfl⟩ | ⟨-, rfl⟩
  · exact .plain (Keyword.isInline_text _) .nil
  · exact .nil

theorem spans_rpcParameter (inputs : RpcInputs) :
    Spans (rpcParameter inputs) (fun _ used => Enclosed used) cursor := by
  refine .bind .takeComments fun _ first _ _ hFirst => ?_
  refine .bind (.eat _) fun stream keyword _ _ hStream => ?_
  refine .bind (spans_rpcType _) fun type used _ _ hType => ?_
  refine .bind .takeComments fun _ second _ _ hSecond => ?_
  refine .bind spans_parameterName fun name word _ _ hName => ?_
  refine .bind .takeComments fun _ third _ _ hThird => .pure ?_
  have hParts := (Inline.of_comments hFirst).append <| (inline_of_eat hStream).append <|
    hType.append <| (Inline.of_comments hSecond).append <| hName.append (.of_comments hThird)
  simpa using hParts.enclosed

theorem spans_rpcParameters :
    Spans rpcParameters (fun _ used => EndsWith ")" Enclosed used) cursor := by
  refine .bind .takeComments fun _ comments _ _ hComments => ?_
  refine .eat_bind (fun _ => ?_) fun _ => ?_
  · rw [if_pos rfl]
    exact .pure ⟨comments, rfl, .of_comments hComments⟩
  · rw [if_neg (by decide)]
    refine .mono (spans_commaList (fun inputs _ => spans_rpcParameter inputs)
      (fun _ _ => Enclosed.comma) _ _ _) ?_
    rintro inputs used ⟨inner, rfl, hInner⟩
    exact ⟨comments ++ inner, by simp, (Enclosed.of_comments hComments).append hInner⟩

theorem spans_rpcBodyMember (options : OptionMap) (head : List String × Token) :
    Spans (rpcBodyMember options head) (fun _ used => IsMember head.2 used) cursor := by
  unfold rpcBodyMember
  split
  · next hEmpty => exact .pure (.inl ⟨hEmpty, rfl⟩)
  · split
    · next hFirst =>
        exact .mono (spans_bindOptionRest _) fun _ _ hUsed => .of_keyword hFirst hUsed
    · exact .rejectLast _

theorem spans_rpcEnd : Spans rpcEnd (fun _ used => Ending used) cursor := by
  refine .eat_bind (fun _ => ?_) fun _ => ?_
  · rw [if_pos rfl]
    exact .pure .stop
  · rw [if_neg (by decide)]
    refine .expect_bind fun _ => ?_
    refine .bind (spans_memberLoop _ (fun options head _ => spans_rpcBodyMember options head) _)
      fun options body _ _ hBody => ?_
    refine .bind (.eat _) fun taken stop _ _ hStop => .pure ?_
    simpa using hBody.ending (rest_of_eat hStop)

theorem spans_rpcRest (comments : List String) :
    Spans (rpcRest comments) (fun _ used => Statement used) cursor := by
  refine .word_bind fun name _ hName => ?_
  refine .expect_bind fun _ => ?_
  refine .bind spans_rpcParameters fun inputs arguments _ _ hArguments => ?_
  refine .expect_bind fun _ => ?_
  refine .expect_bind fun _ => ?_
  refine .bind (.eat _) fun stream keyword _ _ hStream => ?_
  refine .bind (spans_rpcType _) fun type output _ _ hType => ?_
  refine .expect_bind fun _ => ?_
  refine .bind spans_rpcEnd fun options ending _ _ hEnding => .pure ?_
  have hOutput : Inline (Bracket.parenthesis.opening ::
      ((keyword ++ output) ++ Bracket.parenthesis.closing :: [])) :=
    .group .parenthesis (by decide) ((inline_of_eat hStream).append hType).enclosed .nil
  have hInputs : Inline (Bracket.parenthesis.opening :: (arguments ++ Keyword.returns.text ::
      (Bracket.parenthesis.opening ::
        ((keyword ++ output) ++ Bracket.parenthesis.closing :: [])))) :=
    EndsWith.inline .parenthesis (by decide) hArguments
      (.plain (Keyword.isInline_text _) hOutput)
  have hMethod : Statement (name :: (_ ++ ending)) :=
    .plain (Token.isInline_of_isWordLike hName) (hInputs.statement hEnding.statement)
  simpa [Bracket.opening, Bracket.closing] using hMethod

theorem spans_serviceMember (service : Service) (head : List String × Token) :
    Spans (serviceMember service head) (fun _ used => IsMember head.2 used) cursor := by
  have hMethod : ∀ keyword, Keyword.ofToken? head.2 = some keyword →
      Spans (rpcRest head.1) (fun _ used => IsMember head.2 used) cursor :=
    fun _ hFirst => .mono (spans_rpcRest _) fun _ _ hUsed => .of_keyword hFirst hUsed
  unfold serviceMember
  split
  · next hEmpty => exact .pure (.inl ⟨hEmpty, rfl⟩)
  · split
    · next hFirst =>
        exact .returning (.mono (spans_bindOptionRest _) fun _ _ => .of_keyword hFirst)
    · next hFirst =>
        exact .returning (hMethod _ hFirst)
    · next hFirst =>
        exact .returning (hMethod _ hFirst)
    · exact .rejectLast _

theorem spans_serviceRest : Spans serviceRest (fun _ used => Statement used) cursor := by
  refine .word_bind fun name _ hName => ?_
  refine .expect_bind fun _ => ?_
  refine .bind (spans_memberLoop _ (fun service head _ => spans_serviceMember service head) _)
    fun service body _ _ hBody => ?_
  refine .bind (.eat _) fun taken stop _ _ hStop => .pure ?_
  simpa using statement_of_body hName hBody (rest_of_eat hStop)

end Grammar
end ProtoIdl
