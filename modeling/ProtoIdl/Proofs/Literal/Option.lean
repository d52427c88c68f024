import ProtoIdl.Grammar.Option
import ProtoIdl.Proofs.Literal.Matching
import ProtoIdl.Proofs.Parser.Yields

/-!
# Options with open and with closed literals

An open literal may stand in an option as a name, as a key and as a value.  The scope is
refused only names that are given twice, so what it has read so far need not be compared.
-/

namespace ProtoIdl
namespace Grammar

open ProtoIdl.Parser

variable {cursor : Cursor}

/-! ## Scopes -/

theorem matched_bind (options others : OptionMap) (key other : String)
    (value answer : OptionValue) :
    Matched (ofExcept (options.bind key value)) (ofExcept (others.bind other answer)) Any cursor :=
  .ofExcept (fun _ => OptionMap.isDuplicate_of_bind) (fun _ => OptionMap.isDuplicate_of_bind)
    fun _ _ _ _ => trivial

theorem matched_store (form : NestedForm) (options others : OptionMap) (key other : String)
    (inner innerOther : OptionMap) :
    Matched (ofExcept (form.store options key inner))
      (ofExcept (form.store others other innerOther)) Any cursor :=
  .ofExcept (fun _ => isDuplicate_of_store) (fun _ => isDuplicate_of_store) fun _ _ _ _ => trivial

/-! ## Option maps -/

/-- Two entries of one form. -/
inductive MapEntry.Similar : MapEntry → MapEntry → Prop
  | close : Similar .close .close
  | separator : Similar .separator .separator
  | literal (key other : String) (value answer : OptionValue) :
      Similar (.literal key value) (.literal other answer)
  | nested (form : NestedForm) (key other : String) :
      Similar (.nested form key) (.nested form other)

theorem matched_entryKey (first : Token) :
    Matched (entryKey first) (entryKey first.closed) Any cursor := by
  unfold entryKey
  simp (disch := decide) only [Token.closed_eq_iff, Token.isPunctuation_closed]
  split
  · refine (Matched.word _ _).bind fun key other afterKey _ _ => ?_
    exact (Matched.expect (by decide) _).read fun _ _ _ => trivial
  · split
    · exact .rejectLast _
    · exact .pure trivial

theorem matched_entryValue (options others : OptionMap) (key other : String) :
    Matched (entryValue options key) (entryValue others other) MapEntry.Similar cursor := by
  refine Matched.takeComments.bind fun _ _ afterComments _ _ => ?_
  refine (Matched.next _ _).bind fun sign signOther afterSign _ hSign => ?_
  subst hSign
  simp (disch := decide) only [Token.closed_eq_iff]
  split
  · -- a key with a colon must be new, in each of the two maps
    refine .unless_duplicate <| Matched.takeComments.bind fun _ _ afterComments _ _ => ?_
    refine (Matched.next _ _).bind fun value valueOther afterValue _ hValue => ?_
    subst hValue
    simp (disch := decide) only [Token.closed_eq_iff, Token.isPunctuation_closed]
    split
    · exact .pure (.nested _ _ _)
    · split
      · exact .rejectLast _
      · exact .pure (.literal _ _ _ _)
  · split
    · exact .pure (.nested _ _ _)
    · exact .rejectLast _

theorem matched_mapEntry (options others : OptionMap) :
    Matched (mapEntry options) (mapEntry others) MapEntry.Similar cursor := by
  refine Matched.takeComments.bind fun _ _ afterComments _ _ => ?_
  refine (Matched.next _ _).bind fun first firstOther afterFirst _ hFirst => ?_
  subst hFirst
  simp (disch := decide) only [Token.closed_eq_iff]
  split
  · exact .pure .close
  · split
    · exact .pure .separator
    · exact (matched_entryKey first).bind fun key other _ _ _ =>
        matched_entryValue options others key other

theorem matched_optionMap_of_entries
    (hEntries : ∀ entered, cursor.Onward entered → Matched (entries ∅) (entries ∅) Any entered) :
    Matched optionMap optionMap Any cursor :=
  .level hEntries

/-- The entries of an option map, nested maps included. -/
theorem matched_entries (options : OptionMap) (cursor : Cursor) :
    ∀ others, Matched (entries options) (entries others) Any cursor := by
  induction options, cursor using entries_induction with
  | entry options cursor ih =>
      intro others
      rw [entries_eq options, entries_eq others]
      refine (matched_mapEntry options others).bind fun entry other between hEntry hSimilar => ?_
      have hLater := ih entry between hEntry
      cases hSimilar with
      | close => exact .pure trivial
      | separator => exact hLater options between (.refl between) others
      | literal key keyOther value valueOther =>
          refine (matched_bind options others key keyOther value valueOther).bind
            fun grown grownOther after hRun _ => ?_
          exact hLater grown after (onward_of_ok hRun) grownOther
      | nested form key keyOther =>
          have hInner := matched_optionMap_of_entries fun entered hEntered =>
            hLater ∅ entered hEntered ∅
          refine hInner.bind fun inner innerOther afterInner hInnerRun _ => ?_
          refine (matched_store form options others key keyOther inner innerOther).bind
            fun grown grownOther after hRun _ => ?_
          exact hLater grown after ((onward_of_ok hInnerRun).trans (onward_of_ok hRun)) grownOther

theorem matched_optionMap : Matched optionMap optionMap Any cursor :=
  matched_optionMap_of_entries fun entered _ => matched_entries ∅ entered ∅

/-! ## Bindings -/

/-- Both names are that of the option with a restricted value, or none is. -/
abbrev SameGoal (name other : String) : Prop :=
  other = "optimize_for" ↔ name = "optimize_for"

theorem matched_optionName (context : String) :
    Matched (optionName context) (optionName context) SameGoal cursor := by
  refine (Matched.eat (by decide)).bind fun opened _ afterOpened _ hOpened => ?_
  subst hOpened
  split
  · refine (Matched.word _ _).bind fun name nameOther afterName _ hName => ?_
    subst hName
    refine (Matched.expect (by decide) _).bind fun _ _ afterClose _ _ => ?_
    refine (Matched.takeIf Token.isNameSuffix_closed).bind
      fun suffix suffixOther afterSuffix _ hSuffix => ?_
    subst hSuffix
    cases suffix with
    | none => exact .pure (Token.closed_eq_iff (by decide))
    | some suffix => exact .pure (Token.closed_append_closed_eq_iff (by decide))
  · refine (Matched.word _ _).mono fun name nameOther hName => ?_
    subst hName
    exact Token.closed_eq_iff (by decide)

/-- Both values are the same text, or none is a text. -/
abbrev SameText (value answer : OptionValue) : Prop :=
  answer.asText? = value.asText?

theorem admitsValue_congr {name other : String} (hName : SameGoal name other)
    {value answer : OptionValue} (hText : SameText value answer) :
    admitsValue other answer = admitsValue name value := by
  have hSame : (other != "optimize_for") = (name != "optimize_for") := by
    rw [Bool.eq_iff_iff, bne_iff_ne, bne_iff_ne]
    exact not_congr hName
  rw [admitsValue, admitsValue, hSame, hText]

theorem matched_valueFrom {name other : String} (hName : SameGoal name other) (context : String)
    (first : Token) :
    Matched (valueFrom name context first) (valueFrom other context first.closed) Any cursor := by
  have hAdmitted : ∀ (value answer : OptionValue) (later : Cursor),
      SameText value answer →
      Matched (if admitsValue name value then pure value else fail (.invalidOptimizeFor first))
        (if admitsValue other answer then pure answer
          else fail (.invalidOptimizeFor first.closed)) Any later := by
    intro value answer later hText
    rw [admitsValue_congr hName hText]
    split
    · exact .pure trivial
    · exact .fail rfl
  unfold valueFrom
  simp (disch := decide) only [Token.closed_eq_iff, Token.isPunctuation_closed,
    Token.ofLiteral_closed]
  split
  · have hMap : Matched (OptionValue.map <$> optionMap) (OptionValue.map <$> optionMap) SameText
        cursor := by
      rw [map_eq_pure_bind]
      exact matched_optionMap.read fun _ _ _ => rfl
    exact hMap.bind fun value answer later _ hText => hAdmitted value answer later hText
  · split
    · have hReject : Matched (rejectLast context) (rejectLast context) SameText cursor :=
        .rejectLast context
      exact hReject.bind fun value answer later _ hText => hAdmitted value answer later hText
    · exact hAdmitted _ _ cursor rfl

theorem matched_optionBinding (context : String) :
    Matched (optionBinding context) (optionBinding context) Any cursor := by
  refine (matched_optionName context).bind fun name other afterName _ hName => ?_
  refine (Matched.expect (by decide) _).bind fun _ _ afterEquals _ _ => ?_
  have hValue : ∀ start, Matched (optionValue name context) (optionValue other context) Any
      start := by
    intro start
    refine (Matched.next _ _).bind fun first firstOther afterFirst _ hFirst => ?_
    subst hFirst
    exact matched_valueFrom hName context first
  exact (hValue _).read fun _ _ _ => trivial

theorem matched_bindOptionRest (options others : OptionMap) :
    Matched (bindOptionRest options) (bindOptionRest others) Any cursor := by
  have hRest : Matched optionRest optionRest Any cursor := by
    refine (matched_optionBinding _).bind fun binding other afterBinding _ _ => ?_
    refine (Matched.expect (by decide) _).bind fun _ _ afterEnd _ _ => ?_
    exact .pure trivial
  exact hRest.bind fun binding other _ _ _ => matched_bind options others _ _ _ _

theorem matched_fieldOption (options others : OptionMap) :
    Matched (fieldOption options) (fieldOption others) Any cursor := by
  refine Matched.takeComments.bind fun _ _ afterComments _ _ => ?_
  refine (matched_optionBinding _).bind fun binding other afterBinding _ _ => ?_
  refine (matched_bind options others _ _ _ _).bind fun grown grownOther afterStore _ _ => ?_
  exact Matched.takeComments.read fun _ _ _ => trivial

theorem matched_optionalFieldOptions :
    Matched optionalFieldOptions optionalFieldOptions Any cursor := by
  refine Matched.peek.bind fun ahead aheadOther start _ hAhead => ?_
  subst hAhead
  simp (disch := decide) only [Token.map_closed_eq_some_iff]
  split
  · refine (Matched.expect (by decide) _).bind fun _ _ afterOpen _ _ => ?_
    exact .commaList (fun options others _ _ => matched_fieldOption options others) (by decide) _
      trivial
  · exact .pure trivial

end Grammar
end ProtoIdl
