import ProtoIdl.Grammar.Option
import ProtoIdl.Proofs.Bracket.Word
import ProtoIdl.Proofs.Parser.Spans

/-!
# Brackets of lists and options

The shape of the tokens that lists with commas, braced lists, option maps, option statements
and field option lists take.
-/

namespace ProtoIdl

open ProtoIdl.Parser

variable {cursor : Cursor}

/-! ## Lists -/

theorem Enclosed.comma {first second : List Token} (hFirst : Enclosed first)
    (hSecond : Enclosed second) : Enclosed (first ++ "," :: second) :=
  hFirst.append (.plain (by decide) hSecond)

theorem Inline.comma {first second : List Token} (hFirst : Inline first)
    (hSecond : Inline second) : Inline (first ++ "," :: second) :=
  hFirst.append (.plain (by decide) hSecond)

theorem Enclosed.of_comments {comments : List Token}
    (hComments : ∀ token ∈ comments, token.isComment = true) : Enclosed comments :=
  .of_plain fun token hMem => (Token.isInline_of_isComment (hComments token hMem)).1

theorem Inline.of_comments {comments : List Token}
    (hComments : ∀ token ∈ comments, token.isComment = true) : Inline comments := by
  induction comments with
  | nil => exact .nil
  | cons comment rest ih =>
      obtain ⟨hComment, hRest⟩ := List.forall_mem_cons.mp hComments
      exact .plain (Token.isInline_of_isComment hComment) (ih hRest)

namespace Parser

/-- The head of a member takes comments, and the first token of the member or the closing
brace. -/
theorem spans_memberHead (context : String) :
    Spans (memberHead context).toParser
      (fun found used => ∃ comments, (∀ token ∈ comments, Token.isComment token = true) ∧
        used = comments ++ [(found.map Prod.snd).getD Token.closeBrace]) cursor := by
  refine .bind .takeComments fun _ comments _ _ hComments => ?_
  refine .next_bind fun token _ => .pure ?_
  refine ⟨comments, hComments, ?_⟩
  split
  · next hClose => rw [hClose]; rfl
  · rfl

/-- The head of a statement takes comments and the first token of the statement, if there is
one. -/
theorem spans_statementHead :
    Spans statementHead.toParser
      (fun found used => ∃ comments, (∀ token ∈ comments, Token.isComment token = true) ∧
        used = comments ++ (found.map Prod.snd).toList) cursor := by
  refine .bind .takeComments fun _ comments _ _ hComments => ?_
  refine .bind .advance fun token used _ _ hUsed => .pure ?_
  subst hUsed
  refine ⟨comments, hComments, ?_⟩
  cases token <;> simp

/-- A braced list of members takes enclosed tokens and the closing brace. -/
theorem spans_memberLoop {item : σ → List String × Token → Parser σ} (context : String)
    (hItem : ∀ state head start, Spans (item state head)
      (fun _ used => IsMember head.2 used) start) (state : σ) :
    Spans (loop (memberHead context) item state)
      (fun _ used => EndsWith Token.closeBrace Enclosed used) cursor := by
  refine .loop_tokens (fun _ => spans_memberHead context)
    (fun state head start _ => hItem state head start) ?_ ?_ state
  · rintro used ⟨comments, hComments, rfl⟩
    exact ⟨comments, rfl, .of_comments hComments⟩
  · rintro head before used more ⟨comments, hComments, rfl⟩ hUsed ⟨inner, rfl, hInner⟩
    refine ⟨comments ++ (head.2 :: (used ++ inner)), by simp, ?_⟩
    exact (Enclosed.of_comments hComments).append (hUsed.enclosed.append hInner)

/-- A list of statements up to the end of the tokens takes enclosed tokens. -/
theorem spans_statementLoop {item : σ → List String × Token → Parser σ}
    (hItem : ∀ state head start, start.left < cursor.left →
      Spans (item state head) (fun _ used => Enclosed (head.2 :: used)) start) (state : σ) :
    Spans (loop statementHead item state) (fun _ used => Enclosed used) cursor := by
  refine .loop_tokens (fun _ => spans_statementHead) hItem ?_ ?_ state
  · rintro used ⟨comments, hComments, rfl⟩
    exact (Enclosed.of_comments hComments).append .nil
  · rintro head before used more ⟨comments, hComments, rfl⟩ hUsed hMore
    simpa using (Enclosed.of_comments hComments).append (hUsed.append hMore)

/-- A list with commas takes tokens of a shape that its items have and that commas keep, and
the token that ends it. -/
theorem spans_commaList {item : σ → Parser σ} {shape : List Token → Prop}
    (hItem : ∀ state start, Spans (item state) (fun _ used => shape used) start)
    (hComma : ∀ first second, shape first → shape second → shape (first ++ "," :: second))
    (close : Token) (context : String) (state : σ) :
    Spans (commaList close context item state) (fun _ used => EndsWith close shape used)
      cursor := by
  have hHead : ∀ start, Spans (commaHead close context).toParser
      (fun found used => found = some () ∧ used = [","] ∨ found = none ∧ used = [close]) start := by
    intro start
    refine .next_bind fun token _ => ?_
    split
    · next hToken => exact .pure (.inl ⟨rfl, by rw [hToken]⟩)
    · split
      · next hToken => exact .pure (.inr ⟨rfl, by rw [hToken]⟩)
      · exact .rejectLast _
  -- what the loop takes goes on from the items before it
  have hLoop : ∀ first start,
      Spans (loop (commaHead close context) (fun state _ => item state) first)
        (fun _ used => ∀ before, shape before → EndsWith close shape (before ++ used)) start := by
    intro first start
    refine .loop_tokens hHead (fun state _ start _ => hItem state start) ?_ ?_ first
    · rintro used (⟨⟨⟩, -⟩ | ⟨-, rfl⟩) before hBefore
      exact ⟨before, rfl, hBefore⟩
    · rintro _ sign used more (⟨-, rfl⟩ | ⟨⟨⟩, -⟩) hUsed hMore before hBefore
      have hLater := hMore (before ++ "," :: used) (hComma before used hBefore hUsed)
      simpa using hLater
  refine .bind (hItem state cursor) fun first used after _ hUsed => ?_
  exact .mono (hLoop first after) fun _ more hMore => hMore used hUsed

end Parser

namespace Grammar

/-! ## Option maps -/

/-- The tokens of an entry of an option map, by what the entry is. -/
def MapEntry.Shape : MapEntry → List Token → Prop
  | .close => EndsWith Token.closeBrace Enclosed
  | .separator => Enclosed
  | .literal _ _ => Enclosed
  | .nested _ _ => EndsWith Token.openBrace Enclosed

theorem isInline_of_not_punctuation {token : Token} (hToken : ¬token.isPunctuation = true) :
    token.IsInline :=
  Token.isInline_of_not_punctuation (Bool.not_eq_true _ ▸ hToken)

/-- The key of an entry is enclosed with its first token. -/
theorem spans_entryKey (first : Token) :
    Spans (entryKey first) (fun _ used => Enclosed (first :: used)) cursor := by
  unfold entryKey
  split
  · next hFirst =>
      subst hFirst
      refine .word_bind fun key _ hKey => ?_
      refine .expect_bind fun _ => .pure ?_
      exact .group .parenthesis (.plain (Token.isInline_of_isWordLike hKey).1 .nil) .nil
  · split
    · exact .rejectLast _
    · next hFirst => exact .pure (.plain (isInline_of_not_punctuation hFirst).1 .nil)

/-- After a key, the tokens of an entry have the shape of the entry. -/
theorem spans_entryValue (options : OptionMap) (key : String) {before : List Token}
    (hBefore : Enclosed before) :
    Spans (entryValue options key) (fun entry used => entry.Shape (before ++ used)) cursor := by
  refine .bind .takeComments fun _ comments _ _ hComments => ?_
  refine .next_bind fun sign _ => ?_
  have hKey : Enclosed (before ++ comments) := hBefore.append (.of_comments hComments)
  split
  · next hSign =>
      subst hSign
      split
      · exact .fail _
      · refine .bind .takeComments fun _ further _ _ hFurther => ?_
        refine .next_bind fun value _ => ?_
        have hSign : Enclosed (before ++ (comments ++ ":" :: further)) := by
          rw [← List.append_assoc]
          exact hKey.append (.plain (by decide) (.of_comments hFurther))
        split
        · next hValue =>
            subst hValue
            exact .pure ⟨_, by simp, hSign⟩
        · split
          · exact .rejectLast _
          · next hValue =>
              have hLiteral := isInline_of_not_punctuation hValue
              exact .pure (by simpa [MapEntry.Shape] using hSign.append (.plain hLiteral.1 .nil))
  · split
    · next hSign =>
        subst hSign
        exact .pure ⟨_, by simp, hKey⟩
    · exact .rejectLast _

theorem spans_mapEntry (options : OptionMap) :
    Spans (mapEntry options) MapEntry.Shape cursor := by
  refine .bind .takeComments fun _ comments _ _ hComments => ?_
  refine .next_bind fun first _ => ?_
  have hBefore : Enclosed comments := .of_comments hComments
  split
  · next hFirst =>
      subst hFirst
      exact .pure ⟨comments, rfl, hBefore⟩
  · split
    · next hFirst =>
        refine .pure (hBefore.append (.plain ?_ .nil))
        rcases hFirst with rfl | rfl <;> decide
    · refine .bind (spans_entryKey first) fun key used _ _ hKey => ?_
      refine .mono (spans_entryValue options key (hBefore.append hKey)) fun entry more hMore => ?_
      simpa using hMore

/-- An option map takes what its entries take. -/
theorem spans_optionMap_of {holds : OptionMap → List Token → Prop}
    (hEntries : ∀ entered, cursor.Onward entered → Spans (entries ∅) holds entered) :
    Spans optionMap holds cursor := by
  refine .bind .enter fun _ used entered hEnter hUsed => ?_
  subst hUsed
  refine .bind (hEntries entered (onward_of_ok hEnter)) fun options used _ _ hOptions => ?_
  refine .bind .leave fun _ none _ _ hNone => .pure ?_
  subst hNone
  simpa using hOptions

/-- The entries of an option map are enclosed, and the closing brace ends them. -/
theorem spans_entries (options : OptionMap) :
    Spans (entries options) (fun _ used => EndsWith Token.closeBrace Enclosed used) cursor := by
  induction options, cursor using entries_induction with
  | entry options cursor ih =>
      rw [entries_eq]
      refine .bind (spans_mapEntry options) fun entry used after hEntry hUsed => ?_
      have hLater := ih entry after hEntry
      cases entry with
      | close => exact .pure (by simpa [MapEntry.Shape] using hUsed)
      | separator =>
          refine .mono (hLater _ after (.refl after)) ?_
          rintro _ more ⟨inner, rfl, hInner⟩
          exact ⟨used ++ inner, by simp, hUsed.append hInner⟩
      | literal key value =>
          refine .bind (.ofExcept _) fun grown none _ hRun hNone => ?_
          obtain ⟨rfl, -⟩ := hNone
          refine .mono (hLater _ _ (onward_of_ok hRun)) ?_
          rintro _ more ⟨inner, rfl, hInner⟩
          exact ⟨used ++ inner, by simp, hUsed.append hInner⟩
      | nested form key =>
          obtain ⟨opened, rfl, hOpened⟩ := hUsed
          have hMap :
              Spans optionMap (fun _ used => EndsWith Token.closeBrace Enclosed used) after :=
            spans_optionMap_of fun entered hEntered => hLater ∅ entered hEntered
          refine .bind hMap fun inner used _ hInner hUsed => ?_
          refine .bind (.ofExcept _) fun grown none _ hRun hNone => ?_
          obtain ⟨rfl, -⟩ := hNone
          refine .mono (hLater _ _ ((onward_of_ok hInner).trans (onward_of_ok hRun))) ?_
          rintro _ more ⟨inner, rfl, hMore⟩
          have hGroup : Enclosed (Token.openBrace :: (used ++ inner)) :=
            EndsWith.enclosed .brace hUsed hMore
          exact ⟨opened ++ Token.openBrace :: (used ++ inner), by simp, hOpened.append hGroup⟩

/-- An option map, after its opening brace. -/
theorem spans_optionMap :
    Spans optionMap (fun _ used => EndsWith Token.closeBrace Enclosed used) cursor :=
  spans_optionMap_of fun _ _ => spans_entries ∅

/-! ## Option statements -/

theorem spans_optionName (context : String) :
    Spans (optionName context) (fun _ used => Inline used) cursor := by
  refine .eat_bind (fun _ => ?_) fun _ => ?_
  · rw [if_pos rfl]
    refine .word_bind fun name _ hName => ?_
    refine .expect_bind fun _ => ?_
    refine .bind (.takeIf _) fun suffix used _ _ hUsed => ?_
    obtain ⟨rfl, hSuffix⟩ := hUsed
    have hInner : Enclosed [name] := .plain (Token.isInline_of_isWordLike hName).1 .nil
    cases suffix with
    | none => exact .pure (.group .parenthesis (by decide) hInner .nil)
    | some suffix =>
        have hDot : Token.marks.any (· == '.') = false := by decide
        have hToken : suffix.IsInline := by
          refine Token.isInline_of_head hDot ?_
          have hHead := hSuffix suffix rfl
          rw [isNameSuffix, beq_iff_eq] at hHead
          rw [hHead]
          rfl
        exact .pure (.group .parenthesis (by decide) hInner (.plain hToken .nil))
  · rw [if_neg (by decide)]
    refine .mono (.word _ _) ?_
    rintro name used ⟨rfl, hName⟩
    exact .plain (Token.isInline_of_isWordLike hName) .nil

/-- The value of an option is one token or a braced map. -/
def ValueShape (tokens : List Token) : Prop :=
  (∃ token : Token, token.IsInline ∧ tokens = [token]) ∨
    ∃ inner, EndsWith Token.closeBrace Enclosed inner ∧ tokens = Token.openBrace :: inner

theorem spans_valueFrom (name context : String) (first : Token) :
    Spans (valueFrom name context first) (fun _ used => ValueShape (first :: used)) cursor := by
  have hChecked : ∀ value used after, ValueShape (first :: used) →
      Spans (if admitsValue name value then pure value else fail (.invalidOptimizeFor first))
        (fun _ more => ValueShape (first :: (used ++ more))) after := by
    intro value used after hUsed
    split
    · exact .pure (by simpa using hUsed)
    · exact .fail _
  unfold valueFrom
  split
  · next hFirst =>
      subst hFirst
      have hMap : Spans (OptionValue.map <$> optionMap)
          (fun _ used => EndsWith Token.closeBrace Enclosed used) cursor := .map spans_optionMap
      exact .bind hMap fun value used after _ hUsed =>
        hChecked value used after (.inr ⟨used, hUsed, rfl⟩)
  · split
    · have hNever : Spans (rejectLast context) (fun (_ : OptionValue) _ => False) cursor :=
        .rejectLast context
      exact .bind hNever fun _ _ _ _ hFalse => hFalse.elim
    · next hFirst =>
        exact hChecked _ [] cursor (.inl ⟨first, isInline_of_not_punctuation hFirst, rfl⟩)

theorem spans_optionValue (name context : String) :
    Spans (optionValue name context) (fun _ used => ValueShape used) cursor := by
  refine .next_bind fun first _ => ?_
  exact spans_valueFrom name context first

theorem spans_optionBinding (context : String) :
    Spans (optionBinding context)
      (fun _ used => ∃ inside value, used = inside ++ value ∧ Inline inside ∧ ValueShape value)
      cursor := by
  refine .bind (spans_optionName context) fun name used _ _ hName => ?_
  refine .expect_bind fun _ => ?_
  refine .bind (spans_optionValue name context) fun value more _ _ hValue => .pure ?_
  exact ⟨used ++ ["="], more, by simp, hName.append (.plain (by decide) .nil), hValue⟩

theorem ValueShape.enclosed {tokens : List Token} (hTokens : ValueShape tokens) :
    Enclosed tokens := by
  rcases hTokens with ⟨token, hToken, rfl⟩ | ⟨inner, hInner, rfl⟩
  · exact .plain hToken.1 .nil
  · simpa [Bracket.opening] using hInner.enclosed .brace .nil

/-- A value and a semicolon end a statement. -/
theorem ValueShape.statement {tokens : List Token} (hTokens : ValueShape tokens) :
    Statement (tokens ++ [";"]) := by
  rcases hTokens with ⟨token, hToken, rfl⟩ | ⟨inner, hInner, rfl⟩
  · exact .plain hToken Ending.stop.statement
  · exact (hInner.ending (.inr rfl)).statement

theorem spans_optionRest :
    Spans optionRest (fun _ used => Statement used) cursor := by
  refine .bind (spans_optionBinding _) fun binding used _ _ hUsed => ?_
  obtain ⟨inside, value, rfl, hInside, hValue⟩ := hUsed
  refine .expect_bind fun _ => .pure ?_
  simpa using hInside.statement hValue.statement

theorem spans_bindOptionRest (options : OptionMap) :
    Spans (bindOptionRest options) (fun _ used => Statement used) cursor := by
  refine .bind spans_optionRest fun binding used _ _ hUsed => ?_
  refine .mono (.ofExcept _) ?_
  rintro grown more ⟨rfl, -⟩
  rwa [List.append_nil]

/-! ## Field option lists -/

theorem spans_fieldOption (options : OptionMap) :
    Spans (fieldOption options) (fun _ used => Enclosed used) cursor := by
  refine .bind .takeComments fun _ comments _ _ hComments => ?_
  refine .bind (spans_optionBinding _) fun binding used _ _ hUsed => ?_
  obtain ⟨inside, value, rfl, hInside, hValue⟩ := hUsed
  refine .bind (.ofExcept _) fun grown none _ _ hNone => ?_
  obtain ⟨rfl, -⟩ := hNone
  refine .bind .takeComments fun _ further _ _ hFurther => .pure ?_
  have hBinding : Enclosed (inside ++ value) := hInside.enclosed.append hValue.enclosed
  simpa using (Enclosed.of_comments hComments).append
    (hBinding.append (.of_comments hFurther))

theorem spans_fieldOptions :
    Spans fieldOptions (fun _ used => Inline used) cursor := by
  refine .expect_bind fun _ => ?_
  refine .mono (spans_commaList (fun options _ => spans_fieldOption options)
    (fun _ _ => Enclosed.comma) _ _ _) fun options used hUsed => ?_
  simpa [Bracket.opening] using hUsed.inline .square (by decide) .nil

theorem spans_optionalFieldOptions :
    Spans optionalFieldOptions (fun _ used => Inline used) cursor := by
  refine .peekNth_bind fun ahead _ => ?_
  split
  · exact spans_fieldOptions
  · exact .pure .nil

end Grammar
end ProtoIdl
