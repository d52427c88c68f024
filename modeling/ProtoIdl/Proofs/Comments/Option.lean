import ProtoIdl.Grammar.Option
import ProtoIdl.Grammar.Range
import ProtoIdl.Proofs.Comments.Structure

/-!
# Options and ranges, with and without comments

Option maps take the comments around their keys and values, and everything else in an
option refuses a comment, with one exception: the value of an option statement or of an
item of a field option list is whatever token follows the equals sign.  A comment there
becomes the value.  The token behind it then has to end the option, so without the comment
there is no value and the run fails.
-/

namespace ProtoIdl

/-! ## Comments as tokens -/

theorem Token.exists_of_comment {token : Token} (hComment : token.isComment = true) :
    ∃ body, token.toList = '/' :: '/' :: body := by
  unfold isComment at hComment
  split at hComment
  · next body hList => exact ⟨body, hList⟩
  · cases hComment

/-- A comment is no quoted string. -/
theorem Token.startsQuoted_of_comment {token : Token} (hComment : token.isComment = true) :
    token.startsQuoted = false := by
  obtain ⟨body, hList⟩ := token.exists_of_comment hComment
  simp [startsQuoted, hList, isQuote]

/-- A comment is no numeral. -/
theorem Numeral.within?_of_comment {token : Token} (hComment : token.isComment = true)
    (interval : Interval) : within? interval token = none := by
  obtain ⟨body, hList⟩ := token.exists_of_comment hComment
  have hDigit : digitValue? '/' = none := by decide
  simp [within?, value?, magnitude?, ofDigits?, extendBy?, hList, hDigit]

/-- An equals sign is no numeral. -/
theorem Numeral.within?_equals (interval : Interval) : within? interval "=" = none := by
  have hValue : value? ("=" : String).toList = none := by decide
  rw [within?, hValue, Option.filter_none]

namespace Grammar

open ProtoIdl.Parser

variable {cursor : Cursor} {landing : Landing}

/-- What goes on to read a numeral refuses a comment, and an equals sign too. -/
theorem refuses_numeral_bind {interval : Numeral.Interval} {literal : Token}
    {context : String} (hLiteral : literal.isComment = true ∨ literal = "=")
    (second : Int → Parser α) :
    (numeral interval literal context >>= second).Refuses := by
  refine .bind_left (refuses_numeral ?_ context) second
  rcases hLiteral with hComment | rfl
  · exact Numeral.within?_of_comment hComment interval
  · exact Numeral.within?_equals interval

/-! ## Option maps -/

/-- A map is compared if its entries are, from wherever it is entered. -/
theorem mirrored_optionMap_of_entries (hEntries : ∀ entered, cursor.Onward entered →
      Mirrored (entries ∅) (entries ∅) .level id entered) :
    Mirrored optionMap optionMap .level id cursor := by
  refine .bind .enter fun _ entered hEnter => ?_
  refine .bind (hEntries entered (onward_of_ok hEnter)) fun inner afterInner _ => ?_
  refine .bind .leave fun _ afterLeave _ => ?_
  exact .pure rfl

theorem mirrored_entryKey (first : Token) :
    Mirrored (entryKey first) (entryKey first) .level id cursor := by
  unfold entryKey
  split
  · refine .bind (.word _ _) fun key between _ => ?_
    refine .bind (.expect (by decide) (by decide) _) fun _ afterClose _ => ?_
    exact .pure rfl
  · split
    · exact .of_refuses (refuses_rejectLast _)
    · exact .pure rfl

theorem mirrored_entryValue (options : OptionMap) (key : String) :
    Mirrored (entryValue options key) (entryValue options key) .level id cursor := by
  refine .bind .takeComments fun _ between hBetween => ?_
  refine .next_bind (.inl (beforeToken_of_takeComments hBetween)) (refuses_rejectLast _)
    fun sign afterSign _ => ?_
  split
  · split
    · exact .of_refuses (refuses_fail _)
    · refine .bind .takeComments fun _ afterComments hComments => ?_
      refine .next_bind (.inl (beforeToken_of_takeComments hComments)) (refuses_rejectLast _)
        fun value after _ => ?_
      split
      · exact .pure rfl
      · split
        · exact .of_refuses (refuses_rejectLast _)
        · exact .pure rfl
  · split
    · exact .pure rfl
    · exact .of_refuses (refuses_rejectLast _)

theorem mirrored_mapEntry (options : OptionMap) :
    Mirrored (mapEntry options) (mapEntry options) .level id cursor := by
  refine .bind .takeComments fun _ between hBetween => ?_
  refine .next_bind (.inl (beforeToken_of_takeComments hBetween)) ?_ fun first after _ => ?_
  · exact .bind_left (refuses_rejectLast _) _
  · split
    · exact .pure rfl
    · split
      · exact .pure rfl
      · exact .bind (mirrored_entryKey first) fun key _ _ => mirrored_entryValue options key

/-- The entries of an option map, nested maps included, by the tokens ahead. -/
theorem mirrored_entries (options : OptionMap) (cursor : Cursor) :
    Mirrored (entries options) (entries options) .level id cursor := by
  induction hLeft : cursor.left using Nat.strongRecOn generalizing options cursor with
  | ind left ih =>
      rw [entries_eq]
      refine .bind (mirrored_mapEntry options) fun entry between hEntry => ?_
      have hLess := mapEntry_consumes options cursor entry between hEntry trivial
      have hLater : ∀ grown after, between.Onward after →
          Mirrored (entries grown) (entries grown) .level id after := by
        intro grown after hOnward
        have hLe := hOnward.left_le
        exact ih after.left (by omega) grown after rfl
      cases entry with
      | close => exact .pure rfl
      | separator => exact hLater options between (.refl between)
      | literal key value =>
          refine .bind (.ofExcept fun _ hBound => hBound) fun grown after hRun => ?_
          exact hLater grown after (onward_of_ok hRun)
      | nested form key =>
          refine .bind (mirrored_optionMap_of_entries (hLater ∅)) fun inner afterMap hMapRun => ?_
          refine .bind (.ofExcept fun _ hBound => hBound) fun grown after hRun => ?_
          exact hLater grown after ((onward_of_ok hMapRun).trans (onward_of_ok hRun))

theorem mirrored_optionMap : Mirrored optionMap optionMap .level id cursor :=
  mirrored_optionMap_of_entries fun entered _ => mirrored_entries ∅ entered

/-! ## Options -/

/-- A name in parentheses may go on with a suffix, which a comment hides. -/
theorem mirrored_optionName (context : String) :
    Mirrored (optionName context) (optionName context) .beforeToken id cursor := by
  refine .eat_bind (by decide) (by decide) (fun after => ?_) (Mirrored.word _ _ |>.weaken _)
    (.inr (balks_word _ _ _))
  refine .bind (.word _ _) fun name afterName _ => ?_
  refine .bind (.expect (by decide) (by decide) _) fun _ afterName _ => ?_
  refine .takeIf_bind (fun suffix hSuffix => ?_) (fun suffix _ _ => .pure rfl) (.pure rfl)
    (.inr (balks_pure name))
  -- a suffix starts with a dot
  have hDot : suffix.toList.head? = some '.' := by simpa [isNameSuffix] using hSuffix
  constructor
  · cases hComment : suffix.isComment with
    | false => rfl
    | true =>
        obtain ⟨body, hList⟩ := suffix.exists_of_comment hComment
        rw [hList] at hDot
        cases hDot
  · rintro rfl
    revert hDot
    decide

/-- A comment is a literal, and is read without taking another token. -/
theorem eq_of_run_valueFrom_comment {name context : String} {comment : Token}
    {after last : Cursor} {value : OptionValue} (hComment : comment.isComment = true)
    (hRun : (valueFrom name context comment).run after = .ok value last) : last = after := by
  obtain ⟨body, hList⟩ := comment.exists_of_comment hComment
  have hBrace : comment ≠ Token.openBrace := Token.ne_of_comment hComment (by decide)
  have hMark : comment.isPunctuation = false := by simp [Token.isPunctuation, hList]
  simp only [valueFrom, if_neg hBrace, hMark, pure_bind, Bool.false_eq_true, if_false] at hRun
  split at hRun
  · cases hRun
    rfl
  · cases hRun

/-- The end of an option is no value. -/
theorem refuses_valueFrom {token : Token} (hBrace : token ≠ Token.openBrace)
    (hMark : token.isPunctuation = true) (name context : String) :
    (valueFrom name context token).Refuses := by
  simp only [valueFrom, if_neg hBrace, hMark, if_true]
  exact .bind_left (refuses_rejectLast _) _

theorem mirrored_valueFrom (name context : String) (first : Token) :
    Mirrored (valueFrom name context first) (valueFrom name context first) .level id cursor := by
  have hAdmitted : ∀ (value : OptionValue) (later : Cursor),
      Mirrored
        (if admitsValue name value then pure value else fail (.invalidOptimizeFor first))
        (if admitsValue name value then pure value else fail (.invalidOptimizeFor first))
        .level id later := by
    intro value later
    split
    · exact .pure rfl
    · exact .of_refuses (refuses_fail _)
  unfold valueFrom
  dsimp only
  split
  · rw [map_eq_pure_bind, bind_assoc]
    refine .bind mirrored_optionMap fun inner between _ => ?_
    exact hAdmitted (.map inner) between
  · split
    · exact .of_refuses (.bind_left (refuses_rejectLast _) _)
    · exact hAdmitted _ cursor

/-- A value is a comment only if the end of the option comes after it, and then no value is
found without the comment. -/
theorem mirrored_optionBinding (context : String) :
    Mirrored (optionBinding context) (optionBinding context) .beforeSeparator id cursor := by
  refine .bind_of_balks (mirrored_optionName context)
    (fun _ => (balks_expect (by decide) _ _).bind _ _) fun name between _ => ?_
  simp only [optionValue, bind_assoc]
  refine .value_bind ?_ ?_ fun first after _ => ?_
  · exact .bind_left (refuses_valueFrom (by decide) (by decide) _ _) _
  · -- the end of the option stands right behind the comment, and the second run takes it
    intro comment after last bare answer hComment hRun hSeparator hBare
    obtain ⟨value, between, hValue, hPair⟩ := run_bind_eq_ok_iff.mp hRun
    have hLast : last = after := by
      cases hPair
      exact eq_of_run_valueFrom_comment hComment hValue
    obtain ⟨token, hHead, hToken⟩ := hSeparator
    rw [hLast, ← hBare] at hHead
    obtain ⟨rest, hRest⟩ := List.head?_eq_some_iff.mp hHead
    rw [run_next_bind _ _ hRest]
    refine (Refuses.bind_left ?_ _).exists_error _
    rcases hToken with rfl | rfl | rfl <;> exact refuses_valueFrom (by decide) (by decide) _ _
  · exact .bind (mirrored_valueFrom name context first) fun value _ _ => .pure rfl

theorem mirrored_bindOptionRest (options : OptionMap) :
    Mirrored (bindOptionRest options) (bindOptionRest options) .level id cursor := by
  have hRest : Mirrored optionRest optionRest .level id cursor := by
    refine .bind_of_applies .beforeSeparator (by decide) (mirrored_optionBinding _) ?_
      fun binding between _ => ?_
    · intro binding between answer after hRun _
      obtain ⟨rest, hAhead, _⟩ := exists_of_run_expect_bind hRun
      exact ⟨";", Token.head?_withoutComments (by rw [hAhead]; rfl) (by decide), .inl rfl⟩
    · refine .bind (.expect (by decide) (by decide) _) fun _ afterEnd _ => ?_
      exact .pure rfl
  refine .bind hRest fun binding afterBinding _ => ?_
  exact .ofExcept fun grown hBound => hBound

theorem mirrored_fieldOption (options : OptionMap) :
    Mirrored (fieldOption options) (fieldOption options) .beforeSeparator id cursor := by
  refine .bind .takeComments fun _ afterComments _ => ?_
  refine .bind_of_applies .beforeSeparator (by decide) (mirrored_optionBinding _) ?_
    fun binding between _ => ?_
  · -- the comments after the value do not hide the end of the option
    intro binding between answer after hRun hSeparator
    obtain ⟨grown, afterBind, hBind, hRun⟩ := run_bind_eq_ok_iff.mp hRun
    obtain ⟨comments, last, hComments, hLast⟩ := run_bind_eq_ok_iff.mp hRun
    have hStay : afterBind = between := by
      cases hBound : options.bind binding.1 binding.2 with
      | error fault =>
          rw [hBound] at hBind
          cases hBind
      | ok bound =>
          rw [hBound] at hBind
          cases hBind
          rfl
    cases hLast
    cases hComments
    obtain ⟨token, hHead, hToken⟩ := hSeparator
    refine ⟨token, ?_, hToken⟩
    rw [← hHead, ← hStay]
    exact congrArg List.head? (Token.withoutComments_dropWhile afterBind.rest).symm
  · refine .bind (.ofExcept fun _ hBound => hBound) fun grown afterStore _ => ?_
    refine .bind .takeComments fun _ afterComments _ => ?_
    exact .pure rfl

theorem mirrored_fieldOptions : Mirrored fieldOptions fieldOptions .level id cursor := by
  refine .bind (.expect (by decide) (by decide) _) fun _ afterOpen _ => ?_
  refine .commaList .beforeSeparator (by decide) (by decide) (by decide) ?_
    (fun options _ => mirrored_fieldOption options) _ ∅
  intro cursor token hHead hToken
  have hComment : token.isComment = false := by
    rcases hToken with rfl | rfl <;> decide
  exact ⟨token, Token.head?_withoutComments hHead hComment, .inr hToken⟩

/-- A comment hides a field option list that comes after it. -/
theorem mirrored_optionalFieldOptions :
    Mirrored optionalFieldOptions optionalFieldOptions .beforeToken id cursor := by
  refine .peek_bind (fun ahead => ?_) fun comment hComment => ?_
  · split
    · exact mirrored_fieldOptions.weaken _
    · exact .pure rfl
  · have hBracket : some comment ≠ some "[" := by
      simpa using Token.ne_of_comment hComment (by decide)
    rw [if_neg hBracket]
    exact balks_pure _

/-! ## Ranges and reserved entries -/

/-- The upper end of a range is left out if a comment comes next. -/
theorem mirrored_rangeEnd (interval : Numeral.Interval) (first max : Int)
    (expected context : String) :
    Mirrored (rangeEnd interval first max expected context)
      (rangeEnd interval first max expected context) .beforeToken id cursor := by
  refine .eat_bind (by decide) (by decide) (fun after => ?_) (.pure rfl) (.inr (balks_pure first))
  have hRefuses : ∀ token : Token, token.isComment = true ∨ token = "=" →
      (if token = Keyword.max.text then pure max
        else numeral interval token context : Parser Int).Refuses := by
    intro token hToken
    have hMax : token ≠ Keyword.max.text := by
      rcases hToken with hComment | rfl
      · exact Token.ne_of_comment hComment (by decide)
      · decide
    rw [if_neg hMax, ← bind_pure (numeral interval token context)]
    exact refuses_numeral_bind hToken _
  refine .next_bind (.inr fun token hComment => hRefuses token (.inl hComment))
    (hRefuses "=" (.inr rfl)) fun literal afterLiteral _ => ?_
  split
  · exact .pure rfl
  · exact .numeral _ _ _

theorem mirrored_extensionRange :
    Mirrored extensionRange extensionRange .beforeToken id cursor := by
  refine .next_bind (.inr fun token hComment => refuses_numeral_bind (.inl hComment) _)
    (refuses_numeral_bind (.inr rfl) _) fun literal afterLiteral _ => ?_
  refine .bind (.numeral _ _ _) fun first afterFirst _ => ?_
  exact .bind_pure (mirrored_rangeEnd _ _ _ _ _) fun _ => rfl

theorem mirrored_reservedEntry (max : Int) :
    Mirrored (reservedEntry max) (reservedEntry max) .beforeToken id cursor := by
  refine .next_bind (.inr fun token hComment => ?_) ?_ fun literal afterLiteral _ => ?_
  · rw [Token.startsQuoted_of_comment hComment, if_neg (by decide)]
    exact refuses_numeral_bind (.inl hComment) _
  · exact refuses_numeral_bind (.inr rfl) _
  · split
    · exact .pure rfl
    · refine .bind (.numeral _ _ _) fun first afterFirst _ => ?_
      exact .bind_pure (mirrored_rangeEnd _ _ _ _ _) fun _ => rfl

/-- A list that ends with a semicolon, of items that a comment may cut short. -/
theorem mirrored_rangeList {item : Parser α} (context : String)
    (hItem : ∀ cursor, Mirrored item item .beforeToken id cursor) (done : List α) :
    Mirrored
      (commaList ";" context (fun done => do let range ← item; return done ++ [range]) done)
      (commaList ";" context (fun done => do let range ← item; return done ++ [range]) done)
      .level id cursor := by
  refine .commaList .beforeToken (by decide) (by decide) (by decide) ?_ (fun done cursor => ?_)
    _ done
  · intro cursor token hHead hToken first hFirst
    rw [hHead] at hFirst
    cases hFirst
    rcases hToken with rfl | rfl <;> decide
  · exact .bind_pure (hItem cursor) fun _ => rfl

theorem mirrored_extensionsRest (ranges : List ExtensionRange) :
    Mirrored (extensionsRest ranges) (extensionsRest ranges) .level id cursor :=
  mirrored_rangeList _ (fun _ => mirrored_extensionRange) ranges

theorem mirrored_reservedRest (max : Int) (reserved : List Reserved) :
    Mirrored (reservedRest max reserved) (reservedRest max reserved) .level id cursor :=
  mirrored_rangeList _ (fun _ => mirrored_reservedEntry max) reserved

end Grammar
end ProtoIdl
