import ProtoIdl.Proofs.Parser.Running
import ProtoIdl.Proofs.Trace.Steps

/-!
# Runs on tokens with more tokens after them

`parser.Settled firm cursor` compares the run of `parser` from `cursor` with its runs from the
same place in longer lists of tokens.  An error stays the same error, unless it says that the
tokens end.  An answer stays the same answer: always, if the run is `firm`, and otherwise
wherever the run stops before the end of the tokens.  A run that is not firm may have looked
for one more token and found none.

What follows a run that is not firm must not make anything else of the end of the tokens than
to report it.  `parser.AtEnd firm` says so of a parser.
-/

namespace ProtoIdl

/-- The same place in a longer list of tokens. -/
def Cursor.extended (cursor : Cursor) (more : List Token) : Cursor :=
  { cursor with rest := cursor.rest ++ more }

@[simp] theorem Cursor.rest_extended (cursor : Cursor) (more : List Token) :
    (cursor.extended more).rest = cursor.rest ++ more := rfl

@[simp] theorem Cursor.depth_extended (cursor : Cursor) (more : List Token) :
    (cursor.extended more).depth = cursor.depth := rfl

@[simp] theorem Cursor.limit_extended (cursor : Cursor) (more : List Token) :
    (cursor.extended more).limit = cursor.limit := rfl

/-- The error says that the tokens end at this place. -/
def ParseError.EndsAt (stop : Nat) (fault : ParseError) : Prop :=
  ∃ expected context, fault = .unterminated expected context stop

/-- The closing brace of a block is found at the same place in a longer list. -/
theorem Cursor.splitBlock?_append {inner : Nat} {tokens block later : List Token}
    (hSplit : splitBlock? inner tokens = some (block, later)) (more : List Token) :
    splitBlock? inner (tokens ++ more) = some (block, later ++ more) := by
  fun_induction splitBlock? inner tokens generalizing block with
  | case1 => cases hSplit
  | case2 rest =>
      -- the closing brace of the block itself
      cases hSplit
      simp [splitBlock?]
  | case3 rest inner ih =>
      -- the closing brace of an inner block
      obtain ⟨parts, hParts, hPair⟩ := Option.map_eq_some_iff.mp hSplit
      cases hPair
      simp [splitBlock?, ih hParts]
  | case4 inner token rest hOther ih =>
      -- any other token
      obtain ⟨parts, hParts, hPair⟩ := Option.map_eq_some_iff.mp hSplit
      cases hPair
      simp [splitBlock?, hOther, ih hParts]

namespace Parser

/-- More tokens after the last one do not change the run from the cursor, apart from a report
that the tokens end, and from the answer of a run that is not firm and takes them all. -/
structure Settled (parser : Parser α) (firm : Bool) (cursor : Cursor) : Prop where
  ok : ∀ {value after}, parser.run cursor = .ok value after →
    (firm = false → after.rest ≠ []) →
    ∀ more, parser.run (cursor.extended more) = .ok value (after.extended more)
  error : ∀ {fault after}, parser.run cursor = .error fault after →
    fault.EndsAt cursor.stop ∨ ∀ more, (parser.run (cursor.extended more)).Fails fault

/-- Where the tokens end, the parser reports that they do, or answers if it is not firm. -/
def AtEnd (parser : Parser α) (firm : Bool) : Prop :=
  ∀ cursor : Cursor, cursor.rest = [] →
    match parser.run cursor with
    | .ok _ _ => firm = false
    | .error fault _ => fault.EndsAt cursor.stop

/-! ## The end of the tokens -/

namespace AtEnd

variable {firm : Bool}

theorem pure (value : α) : AtEnd (pure value) false :=
  fun _ _ => rfl

/-- What needs a token reports the end of the tokens. -/
theorem next (expected context : String) : AtEnd (next expected context) firm := by
  intro cursor hRest
  simp only [Parser.next, run_bind, advance, hRest]
  exact ⟨expected, context, rfl⟩

theorem takeIf (accepts : Token → Bool) : AtEnd (takeIf accepts) false := by
  intro cursor hRest
  simp only [Parser.takeIf, hRest]

theorem takeComments : AtEnd takeComments false :=
  fun _ _ => rfl

theorem peek : AtEnd peek false :=
  fun _ _ => rfl

/-- What starts by reporting the end reports it. -/
theorem bind_left {first : Parser α} {second : α → Parser β} (hFirst : AtEnd first true) :
    AtEnd (first >>= second) firm := by
  intro cursor hRest
  have hOutcome := hFirst cursor hRest
  rw [run_bind]
  cases hRun : first.run cursor with
  | ok value after =>
      rw [hRun] at hOutcome
      cases hOutcome
  | error fault after =>
      rw [hRun] at hOutcome
      exact hOutcome

/-- What goes on to report the end reports it. -/
theorem bind_right {first : Parser α} {second : α → Parser β} (hFirst : AtEnd first false)
    (hSecond : ∀ value, AtEnd (second value) firm) : AtEnd (first >>= second) firm := by
  intro cursor hRest
  have hOutcome := hFirst cursor hRest
  rw [run_bind]
  cases hRun : first.run cursor with
  | error fault after =>
      rw [hRun] at hOutcome
      exact hOutcome
  | ok value after =>
      have hOnward := onward_of_ok hRun
      have hLeft := hOnward.left_le
      have hDone : after.rest = [] := by
        rw [← List.length_eq_zero_iff]
        simpa [Cursor.left, hRest] using hLeft
      rw [← hOnward.stop_eq]
      exact hSecond value after hDone

theorem eat (token : Token) : AtEnd (eat token) false :=
  .bind_right (.takeIf _) fun _ => .pure _

theorem expect (token : Token) (context : String) : AtEnd (expect token context) firm :=
  .bind_left (.next _ _)

theorem word (expected context : String) : AtEnd (word expected context) firm :=
  .bind_left (.next _ _)

theorem loop {head : Head η} (hHead : AtEnd head.toParser true) (item : σ → η → Parser σ)
    (state : σ) : AtEnd (loop head item state) firm := by
  rw [loop_eq]
  exact .bind_left hHead

theorem memberHead (context : String) : AtEnd (memberHead context).toParser firm :=
  .bind_right .takeComments fun _ => .bind_left (.next _ _)

theorem commaHead (close : Token) (context : String) :
    AtEnd (commaHead close context).toParser firm :=
  .bind_left (.next _ _)

end AtEnd

/-! ## Steps -/

namespace Settled

variable {cursor : Cursor} {firm : Bool}

/-- A firm run ends in the same way, even if it has taken all tokens. -/
theorem run_extended {parser : Parser α} {value : α} {after : Cursor}
    (hParser : Settled parser true cursor) (hRun : parser.run cursor = .ok value after)
    (more : List Token) :
    parser.run (cursor.extended more) = .ok value (after.extended more) :=
  hParser.ok hRun nofun more

theorem of_firm {parser : Parser α} (hParser : Settled parser true cursor) :
    Settled parser firm cursor where
  ok hRun _ := hParser.run_extended hRun
  error := hParser.error

theorem pure (value : α) : Settled (pure value) firm cursor where
  ok hRun _ more := by
    cases hRun
    rfl
  error hRun := nomatch hRun

theorem fail (fault : ParseError) : Settled (fail fault : Parser α) firm cursor where
  ok hRun := nomatch hRun
  error hRun := by
    cases hRun
    exact .inr fun more => ⟨_, rfl⟩

theorem ofExcept (result : Except ParseError α) :
    Settled (Parser.ofExcept result) firm cursor := by
  cases result with
  | ok value => exact .pure value
  | error fault => exact .fail fault

theorem rejectLast (hSeen : cursor.seen ≠ []) (context : String) :
    Settled (rejectLast context : Parser α) firm cursor where
  ok hRun := nomatch hRun
  error hRun := by
    cases hRun
    refine .inr fun more => ⟨cursor.extended more, ?_⟩
    obtain ⟨last, before, hCons⟩ := List.exists_cons_of_ne_nil hSeen
    simp only [Parser.rejectLast, Cursor.unexpectedLast, Cursor.extended, hCons]

theorem rejectNth {n : Nat} (hAhead : n < cursor.left) (context : String) :
    Settled (rejectNth n context : Parser α) firm cursor where
  ok hRun := nomatch hRun
  error hRun := by
    cases hRun
    refine .inr fun more => ⟨cursor.extended more, ?_⟩
    have hSame : (cursor.extended more).peekNth? n = cursor.peekNth? n :=
      List.getElem?_append_left hAhead
    simp only [Parser.rejectNth, Cursor.unexpectedNth, hSame]
    rfl

theorem rejectEnd (expected context : String) :
    Settled (rejectEnd expected context : Parser α) firm cursor where
  ok hRun := nomatch hRun
  error hRun := by
    cases hRun
    exact .inl ⟨expected, context, rfl⟩

/-- A token that is ahead is the same token in a longer list. -/
theorem peekNth {n : Nat} (hAhead : n < cursor.left) : Settled (peekNth n) firm cursor where
  ok hRun _ more := by
    cases hRun
    have hSame : (cursor.extended more).peekNth? n = cursor.peekNth? n :=
      List.getElem?_append_left hAhead
    simp only [Parser.peekNth, hSame]
  error hRun := nomatch hRun

theorem peek : Settled peek false cursor where
  ok hRun hMore more := by
    cases hRun
    have hAhead : 0 < cursor.left := List.length_pos_iff.mpr (hMore rfl)
    have hSame : Settled (Parser.peekNth 0) true cursor := peekNth hAhead
    exact hSame.ok rfl nofun more
  error hRun := nomatch hRun

theorem takeIf (accepts : Token → Bool) : Settled (takeIf accepts) false cursor where
  ok {value after} hRun hMore more := by
    cases hRest : cursor.rest with
    | nil =>
        simp only [Parser.takeIf, hRest] at hRun
        cases hRun
        exact absurd hRest (hMore rfl)
    | cons token rest =>
        simp only [Parser.takeIf, hRest, Cursor.extended, List.cons_append] at hRun ⊢
        split at hRun
        · next hAccepts =>
            cases hRun
            rw [if_pos hAccepts]
        · next hRefuses =>
            cases hRun
            rw [if_neg hRefuses, hRest]
            rfl
  error hRun := by
    simp only [Parser.takeIf] at hRun
    split at hRun
    · cases hRun
    · split at hRun <;> cases hRun

/-- A run of comments that ends before the tokens do ends there in a longer list too. -/
theorem takeComments : Settled takeComments false cursor where
  ok hRun hMore more := by
    cases hRun
    have hStop : cursor.rest.dropWhile Token.isComment ≠ [] := hMore rfl
    have hSplit : cursor.rest.takeWhile Token.isComment ++ cursor.rest.dropWhile Token.isComment =
        cursor.rest := List.takeWhile_append_dropWhile
    have hShort : (cursor.rest.takeWhile Token.isComment).length ≠ cursor.rest.length := by
      intro hAll
      have hLength := congrArg List.length hSplit
      rw [List.length_append, hAll] at hLength
      exact hStop (List.length_eq_zero_iff.mp (by omega))
    have hFilled : (cursor.rest.dropWhile Token.isComment).isEmpty = false := by
      simpa using hStop
    simp only [Parser.takeComments, Cursor.extended, List.takeWhile_append,
      List.dropWhile_append, if_neg hShort, hFilled]
    rfl
  error hRun := nomatch hRun

/-! ## Composition -/

/-- An error of a composed run is one of its first part, or one of what follows. -/
theorem error_of_bind {first : Parser α} {second : α → Parser β} {fault : ParseError}
    {after : Cursor}
    (hFirst : ∀ {fault after}, first.run cursor = .error fault after →
      fault.EndsAt cursor.stop ∨ ∀ more, (first.run (cursor.extended more)).Fails fault)
    (hSecond : ∀ value between, first.run cursor = .ok value between →
      (second value).run between = .error fault after → fault.EndsAt between.stop ∨
        ∀ more, ((first >>= second).run (cursor.extended more)).Fails fault)
    (hRun : (first >>= second).run cursor = .error fault after) :
    fault.EndsAt cursor.stop ∨
      ∀ more, ((first >>= second).run (cursor.extended more)).Fails fault := by
  rw [run_bind] at hRun
  split at hRun
  · next inner between hInner =>
      rw [← (onward_of_ok hInner).stop_eq]
      exact hSecond inner between hInner hRun
  · next refused stopped hInner =>
      cases hRun
      exact (hFirst hInner).imp_right fun hSame more => fails_bind (hSame more) second

/-- A firm run stops at the same token in a longer list, and what follows starts there. -/
theorem bind {first : Parser α} {second : α → Parser β} (hFirst : Settled first true cursor)
    (hSecond : ∀ value between, first.run cursor = .ok value between →
      Settled (second value) firm between) :
    Settled (first >>= second) firm cursor where
  ok {value after} hRun hMore more := by
    obtain ⟨inner, between, hInner, hOuter⟩ := run_bind_eq_ok_iff.mp hRun
    rw [run_bind, hFirst.run_extended hInner more]
    exact (hSecond inner between hInner).ok hOuter hMore more
  error {fault after} hRun := by
    refine error_of_bind hFirst.error (fun inner between hInner hOuter => ?_) hRun
    refine ((hSecond inner between hInner).error hOuter).imp_right fun hSame more => ?_
    rw [run_bind, hFirst.run_extended hInner more]
    exact hSame more

/-- A run that is not firm may have met the end of the tokens.  What follows then has to
report it, or may answer if nothing firm is asked of the whole. -/
theorem bind_atEnd {first : Parser α} {second : α → Parser β}
    (hFirst : Settled first false cursor) (hEnd : ∀ value, AtEnd (second value) firm)
    (hSecond : ∀ value between, first.run cursor = .ok value between →
      Settled (second value) firm between) :
    Settled (first >>= second) firm cursor where
  ok {value after} hRun hMore more := by
    obtain ⟨inner, between, hInner, hOuter⟩ := run_bind_eq_ok_iff.mp hRun
    -- at the end of the tokens the second part could only have answered if it is not firm
    have hAhead : between.rest ≠ [] := by
      intro hDone
      have hOutcome := hEnd inner between hDone
      rw [hOuter] at hOutcome
      have hLeft := (onward_of_ok hOuter).left_le
      exact hMore hOutcome (List.length_eq_zero_iff.mp (by simpa [Cursor.left, hDone] using hLeft))
    rw [run_bind, hFirst.ok hInner (fun _ => hAhead) more]
    exact (hSecond inner between hInner).ok hOuter hMore more
  error {fault after} hRun := by
    refine error_of_bind hFirst.error (fun inner between hInner hOuter => ?_) hRun
    by_cases hDone : between.rest = []
    · have hOutcome := hEnd inner between hDone
      rw [hOuter] at hOutcome
      exact .inl hOutcome
    · refine ((hSecond inner between hInner).error hOuter).imp_right fun hSame more => ?_
      rw [run_bind, hFirst.ok hInner (fun _ => hDone) more]
      exact hSame more

/-! ## Single tokens -/

theorem eat (token : Token) : Settled (eat token) false cursor :=
  .bind_atEnd (.takeIf _) (fun _ => .pure _) fun found _ _ => .pure found.isSome

/-- A token that must be there is the same token in a longer list. -/
theorem next (expected context : String) : Settled (next expected context) firm cursor where
  ok {value after} hRun _ more := by
    cases hRest : cursor.rest with
    | nil => simp [Parser.next, run_bind, advance, hRest, Parser.rejectEnd] at hRun
    | cons token rest =>
        simp only [Parser.next, run_bind, advance, hRest, Cursor.extended, List.cons_append]
          at hRun ⊢
        cases hRun
        rfl
  error {fault after} hRun := by
    cases hRest : cursor.rest with
    | nil =>
        have hNeeds : AtEnd (Parser.next expected context) true := .next expected context
        have hEnd := hNeeds cursor hRest
        rw [hRun] at hEnd
        exact .inl hEnd
    | cons token rest => simp [Parser.next, run_bind, advance, hRest] at hRun

/-- A token is taken and then looked at. -/
theorem next_bind {expected context : String} {second : Token → Parser β}
    (hSecond : ∀ token after, after.seen ≠ [] → Settled (second token) firm after) :
    Settled (Parser.next expected context >>= second) firm cursor :=
  .bind (next expected context) fun token after hRun => hSecond token after <|
    (onward_of_ok hRun).seen_ne_nil_of_lt (next_consumes expected context cursor _ _ hRun trivial)

theorem expect (token : Token) (context : String) :
    Settled (expect token context) firm cursor := by
  refine next_bind fun found after hSeen => ?_
  split
  · exact .pure ()
  · exact .rejectLast hSeen context

theorem checkWord (hSeen : cursor.seen ≠ []) (token : Token) (context : String) :
    Settled (checkWord token context) firm cursor := by
  unfold Parser.checkWord
  split
  · exact .pure token
  · exact .rejectLast hSeen context

theorem word (expected context : String) : Settled (word expected context) firm cursor :=
  next_bind fun token _ hSeen => checkWord hSeen token context

theorem numeral (interval : Numeral.Interval) (literal : Token) (context : String) :
    Settled (numeral interval literal context) firm cursor := by
  unfold Parser.numeral
  split
  · exact .pure _
  · exact .fail _

/-! ## Levels and blocks -/

theorem enter : Settled enter firm cursor where
  ok {value after} hRun _ more := by
    simp only [Parser.enter, Cursor.enter, Cursor.extended] at hRun ⊢
    split at hRun
    · next inside hEnter =>
        cases hRun
        split at hEnter
        · next hOpen =>
            cases hEnter
            rw [if_pos hOpen]
        · cases hEnter
    · cases hRun
  error {fault after} hRun := by
    refine .inr fun more => ⟨cursor.extended more, ?_⟩
    simp only [Parser.enter, Cursor.enter, Cursor.extended] at hRun ⊢
    split at hRun
    · cases hRun
    · next hEnter =>
        cases hRun
        split at hEnter
        · cases hEnter
        · next hShut =>
            cases hEnter
            rw [if_neg hShut]

theorem leave : Settled leave firm cursor where
  ok hRun _ more := by
    cases hRun
    rfl
  error hRun := nomatch hRun

/-- What is read inside a block ends with it, so a longer list makes no difference. -/
theorem run_inside_extended {context : String} {body : Parser α} {block later : List Token}
    (hSplit : Cursor.splitBlock? 0 cursor.rest = some (block, later)) (more : List Token) :
    (Parser.inside context body).run (cursor.extended more) =
      ((Parser.inside context body).run cursor).finish (·.extended more) (·.extended more) := by
  have hSame : blockCursor (cursor.extended more) block = blockCursor cursor block := rfl
  rw [run_inside_eq, run_inside_eq, Cursor.rest_extended, Cursor.splitBlock?_append hSplit more,
    hSplit]
  simp only [Cursor.depth_extended, Cursor.limit_extended, hSame]
  by_cases hOpen : cursor.depth < cursor.limit
  · rw [if_pos hOpen, if_pos hOpen]
    cases body.run (blockCursor cursor block) <;> rfl
  · rw [if_neg hOpen, if_neg hOpen]
    rfl

theorem inside (context : String) (body : Parser α) :
    Settled (inside context body) firm cursor where
  ok {value after} hRun _ more := by
    obtain ⟨block, later, _, hSplit, _⟩ := exists_of_run_inside hRun
    rw [run_inside_extended hSplit, hRun]
    rfl
  error {fault after} hRun := by
    cases hSplit : Cursor.splitBlock? 0 cursor.rest with
    | none =>
        rw [run_inside_eq, hSplit] at hRun
        cases hRun
        exact .inl ⟨_, _, rfl⟩
    | some parts =>
        refine .inr fun more => ⟨after.extended more, ?_⟩
        rw [run_inside_extended hSplit, hRun]
        rfl

/-! ## Lists of items -/

/-- A loop is firm if its head is and needs a token.  An item that takes all the tokens may
go on in a longer list, and the head after it reports the end. -/
theorem loop {head : Head η} {item : σ → η → Parser σ}
    (hHead : ∀ start, Settled head.toParser true start) (hEnd : AtEnd head.toParser true)
    (hItem : ∀ state found start, start.seen ≠ [] → Settled (item state found) false start)
    (state : σ) (cursor : Cursor) : Settled (loop head item state) firm cursor := by
  induction hLeft : cursor.left using Nat.strongRecOn generalizing state cursor with
  | ind left ih =>
      rw [loop_eq]
      refine .bind (hHead cursor) fun found between hRun => ?_
      cases found with
      | none => exact .pure state
      | some found =>
          have hLess := head.progress cursor _ between hRun rfl
          have hSeen := (onward_of_ok hRun).seen_ne_nil_of_lt hLess
          -- an item that has met the end is followed by a head, and that needs a token
          refine .bind_atEnd (hItem state found between hSeen) (fun _ => .loop hEnd item _) ?_
          intro grown after hItemRun
          have hLe := (onward_of_ok hItemRun).left_le
          exact ih after.left (by omega) grown after rfl

theorem memberHead (context : String) : Settled (memberHead context).toParser firm cursor := by
  refine .bind_atEnd .takeComments (fun _ => .bind_left (.next _ _)) fun _ afterComments _ => ?_
  refine .bind (.next _ _) fun first afterFirst _ => ?_
  exact .pure _

theorem commaHead (close : Token) (context : String) :
    Settled (commaHead close context).toParser firm cursor := by
  refine next_bind fun token after hSeen => ?_
  split
  · exact .pure _
  · split
    · exact .pure _
    · exact .rejectLast hSeen context

/-- The members of a braced list. -/
theorem memberLoop {item : σ → List String × Token → Parser σ}
    (hItem : ∀ state head start, start.seen ≠ [] → Settled (item state head) false start)
    (context : String) (state : σ) :
    Settled (Parser.loop (Parser.memberHead context) item state) firm cursor :=
  .loop (fun _ => .memberHead context) (.memberHead context) hItem state cursor

theorem commaList {item : σ → Parser σ} (hItem : ∀ state start, Settled (item state) false start)
    (close : Token) (context : String) (state : σ) :
    Settled (commaList close context item state) firm cursor :=
  .bind_atEnd (hItem state cursor) (fun _ => .loop (.commaHead close context) _ _)
    fun first after _ => .loop (fun _ => .commaHead close context) (.commaHead close context)
      (fun state _ start _ => hItem state start) first after

end Settled
end Parser
end ProtoIdl
