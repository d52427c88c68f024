import ProtoIdl.Proofs.Local.Settled

/-!
# How far parsers look ahead

`parser.LooksAhead ahead cursor` says that a successful run needs no tokens but those it takes
and `ahead` more: where it leaves that many before the end, and what was added behind the end,
it answers the same without what was added.  Most parsers look no further than they take.  A
token that is only taken if it has some form is no exception: where it is missing, it is not
taken either.

With `Parser.Settled`, which adds tokens behind the end, this makes a run independent of all
tokens that it leaves.
-/

namespace ProtoIdl

/-- The closing brace of a block is found without the tokens after it. -/
theorem Cursor.splitBlock?_of_append {inner : Nat} {tokens later block rest : List Token}
    (hSplit : splitBlock? inner (tokens ++ later) = some (block, rest))
    (hLeft : later.length ≤ rest.length) :
    ∃ before, rest = before ++ later ∧ splitBlock? inner tokens = some (block, before) := by
  induction tokens generalizing inner block with
  | nil =>
      have hLength := congrArg List.length (append_of_splitBlock? hSplit)
      simp only [List.nil_append, List.length_append, List.length_cons] at hLength
      omega
  | cons token tokens ih =>
      rw [List.cons_append, splitBlock?.eq_def] at hSplit
      rw [splitBlock?.eq_def]
      dsimp only at hSplit ⊢
      have hInner : ∀ {inner}, (splitBlock? inner (tokens ++ later)).map
            (fun parts => (token :: parts.1, parts.2)) = some (block, rest) →
          ∃ before, rest = before ++ later ∧
            (splitBlock? inner tokens).map (fun parts => (token :: parts.1, parts.2)) =
              some (block, before) := by
        intro inner hMap
        obtain ⟨⟨first, second⟩, hFound, hPair⟩ := Option.map_eq_some_iff.mp hMap
        cases hPair
        obtain ⟨before, hBefore, hShort⟩ := ih hFound
        exact ⟨before, hBefore, by rw [hShort]; rfl⟩
      by_cases hClose : token = Token.closeBrace
      · rw [if_pos hClose] at hSplit
        simp only [if_pos hClose]
        cases inner with
        | zero =>
            cases hSplit
            exact ⟨tokens, rfl, rfl⟩
        | succ inner => exact hInner hSplit
      · rw [if_neg hClose] at hSplit
        simp only [if_neg hClose]
        exact hInner hSplit

/-- Where what is dropped from the front is none of what was added, the front alone decides. -/
theorem takeWhile_eq_of_length_le {accepts : ξ → Bool} {front later : List ξ}
    (hLeft : later.length ≤ ((front ++ later).dropWhile accepts).length) :
    (front ++ later).takeWhile accepts = front.takeWhile accepts ∧
      (front ++ later).dropWhile accepts = front.dropWhile accepts ++ later := by
  induction front with
  | nil =>
      have hStay : later.dropWhile accepts = later :=
        (List.dropWhile_suffix accepts).eq_of_length_le hLeft
      have hSplit := List.takeWhile_append_dropWhile (p := accepts) (l := later)
      rw [hStay, List.append_left_eq_self] at hSplit
      exact ⟨hSplit, hStay⟩
  | cons x front ih =>
      simp only [List.cons_append, List.takeWhile_cons, List.dropWhile_cons] at hLeft ⊢
      split
      · next hAccepts =>
          rw [if_pos hAccepts] at hLeft
          obtain ⟨hTake, hDrop⟩ := ih hLeft
          exact ⟨congrArg (x :: ·) hTake, hDrop⟩
      · exact ⟨rfl, rfl⟩

namespace Parser

/-- A run that leaves `ahead` tokens and all that was added behind the end is the same without
what was added. -/
def LooksAhead (parser : Parser α) (ahead : Nat) (cursor : Cursor) : Prop :=
  ∀ later value after, parser.run (cursor.extended later) = .ok value after →
    later.length + ahead ≤ after.left →
      ∃ stop, after = stop.extended later ∧ parser.run cursor = .ok value stop

theorem Consumes.expect (token : Token) (context : String) :
    (Parser.expect token context).Consumes fun _ => True :=
  .bind_left (next_consumes _ _)

/-- A loop takes a token if each head does. -/
theorem Consumes.loop {head : Head η} {item : σ → η → Parser σ}
    (hHead : head.toParser.Consumes fun _ => True) (state : σ) :
    (Parser.loop head item state).Consumes fun _ => True := by
  rw [loop_eq]
  exact .bind_left hHead

namespace LooksAhead

variable {cursor : Cursor} {ahead : Nat}

theorem mono {parser : Parser α} {further : Nat} (hParser : parser.LooksAhead ahead cursor)
    (hLe : ahead ≤ further) : parser.LooksAhead further cursor :=
  fun later value after hRun hLeft => hParser later value after hRun (by omega)

theorem of_zero {parser : Parser α} (hParser : parser.LooksAhead 0 cursor) :
    parser.LooksAhead ahead cursor :=
  hParser.mono (Nat.zero_le ahead)

/-! ## Steps without tokens -/

theorem pure (value : α) : (pure value : Parser α).LooksAhead ahead cursor := by
  intro later answer after hRun _
  cases hRun
  exact ⟨cursor, rfl, rfl⟩

theorem fail (fault : ParseError) : (fail fault : Parser α).LooksAhead ahead cursor :=
  fun _ _ _ hRun => nomatch hRun

theorem rejectNth (n : Nat) (context : String) :
    (rejectNth n context : Parser α).LooksAhead ahead cursor :=
  fun _ _ _ hRun => nomatch hRun

theorem rejectLast (context : String) :
    (rejectLast context : Parser α).LooksAhead ahead cursor :=
  fun _ _ _ hRun => nomatch hRun

theorem rejectEnd (expected context : String) :
    (rejectEnd expected context : Parser α).LooksAhead ahead cursor :=
  fun _ _ _ hRun => nomatch hRun

theorem ofExcept (result : Except ParseError α) :
    (Parser.ofExcept result).LooksAhead ahead cursor := by
  cases result with
  | ok value => exact .pure value
  | error fault => exact .fail fault

theorem checkWord (token : Token) (context : String) :
    (checkWord token context).LooksAhead ahead cursor := by
  unfold Parser.checkWord
  split
  · exact .pure token
  · exact .rejectLast context

theorem numeral (interval : Numeral.Interval) (literal : Token) (context : String) :
    (numeral interval literal context).LooksAhead ahead cursor := by
  unfold Parser.numeral
  split
  · exact .pure _
  · exact .fail _

theorem enter : enter.LooksAhead ahead cursor := by
  intro later value after hRun _
  rw [run_enter_eq, Cursor.depth_extended, Cursor.limit_extended] at hRun
  split at hRun
  · next hOpen =>
      cases hRun
      exact ⟨entered cursor, rfl, by rw [run_enter_eq, if_pos hOpen]⟩
  · cases hRun

theorem leave : leave.LooksAhead ahead cursor := by
  intro later value after hRun _
  cases hRun
  exact ⟨cursor.leave, rfl, rfl⟩

/-! ## Single tokens -/

/-- To see a token, that token and those before it must be there. -/
theorem peekNth (n : Nat) : (peekNth n).LooksAhead (n + 1) cursor := by
  intro later value after hRun hLeft
  cases hRun
  have hAhead : n < cursor.rest.length := by
    simp only [Cursor.left, Cursor.rest_extended, List.length_append] at hLeft
    omega
  refine ⟨cursor, rfl, ?_⟩
  simp only [Parser.peekNth, Cursor.peekNth?, Cursor.rest_extended,
    List.getElem?_append_left hAhead]

theorem peek : peek.LooksAhead 1 cursor :=
  peekNth 0

/-- A token that must be there is there without the tokens after it. -/
theorem next (expected context : String) : (next expected context).LooksAhead ahead cursor := by
  intro later value after hRun hLeft
  cases hRest : cursor.rest with
  | nil =>
      -- the token would be one of those that were added
      have hLess := next_consumes expected context _ _ _ hRun trivial
      simp only [Cursor.left, Cursor.rest_extended, hRest, List.nil_append] at hLess hLeft
      omega
  | cons token rest =>
      simp only [Parser.next, run_bind, Parser.advance, hRest, Cursor.rest_extended,
        List.cons_append] at hRun ⊢
      cases hRun
      exact ⟨cursor.past value rest, rfl, rfl⟩

/-- A token that is missing is not taken, and neither is one that was added. -/
theorem takeIf (accepts : Token → Bool) : (takeIf accepts).LooksAhead ahead cursor := by
  intro later value after hRun hLeft
  cases hRest : cursor.rest with
  | nil =>
      cases later with
      | nil =>
          simp only [Parser.takeIf, hRest, Cursor.rest_extended, List.nil_append] at hRun ⊢
          cases hRun
          exact ⟨cursor, rfl, rfl⟩
      | cons token rest =>
          simp only [Parser.takeIf, hRest, Cursor.rest_extended, List.nil_append] at hRun ⊢
          split at hRun
          · cases hRun
            simp only [Cursor.left, List.length_cons] at hLeft
            omega
          · cases hRun
            exact ⟨cursor, rfl, rfl⟩
  | cons token rest =>
      simp only [Parser.takeIf, hRest, Cursor.rest_extended, List.cons_append] at hRun ⊢
      split at hRun
      · next hAccepts =>
          cases hRun
          exact ⟨cursor.past token rest, rfl, by rw [if_pos hAccepts]; rfl⟩
      · next hRefuses =>
          cases hRun
          exact ⟨cursor, by rw [Cursor.extended, hRest], if_neg hRefuses⟩

/-- A run of comments that takes none of the tokens that were added ends before them. -/
theorem takeComments : takeComments.LooksAhead ahead cursor := by
  intro later value after hRun hLeft
  simp only [Parser.takeComments, Cursor.rest_extended] at hRun ⊢
  cases hRun
  have hLater : later.length ≤ ((cursor.rest ++ later).dropWhile Token.isComment).length :=
    Nat.le_of_add_right_le hLeft
  obtain ⟨hTaken, hRest⟩ := takeWhile_eq_of_length_le hLater
  rw [hTaken, hRest]
  exact ⟨_, rfl, rfl⟩

/-! ## Composition -/

/-- A first part that looks further ahead may be followed by one that takes the tokens. -/
theorem bind_takes {first : Parser α} {second : α → Parser β} {further : Nat}
    (hFirst : first.LooksAhead further cursor)
    (hTakes : ∀ value start answer last, (second value).run start = .ok answer last →
      last.left + further ≤ start.left + ahead)
    (hSecond : ∀ value between, first.run cursor = .ok value between →
      (second value).LooksAhead ahead between) :
    (first >>= second).LooksAhead ahead cursor := by
  intro later answer last hRun hLeft
  obtain ⟨value, after, hValue, hAnswer⟩ := run_bind_eq_ok_iff.mp hRun
  have hBefore := hTakes value after answer last hAnswer
  obtain ⟨between, rfl, hShort⟩ := hFirst later value after hValue (by omega)
  obtain ⟨stop, rfl, hStop⟩ := hSecond value between hShort later answer last hAnswer hLeft
  exact ⟨stop, rfl, run_bind_eq_ok_iff.mpr ⟨value, between, hShort, hStop⟩⟩

theorem bind {first : Parser α} {second : α → Parser β} (hFirst : first.LooksAhead ahead cursor)
    (hSecond : ∀ value between, first.run cursor = .ok value between →
      (second value).LooksAhead ahead between) : (first >>= second).LooksAhead ahead cursor :=
  .bind_takes hFirst (fun _ _ _ _ hRun => Nat.add_le_add_right (onward_of_ok hRun).left_le ahead)
    hSecond

theorem map {parser : Parser α} (hParser : parser.LooksAhead ahead cursor) (change : α → β) :
    (change <$> parser).LooksAhead ahead cursor := by
  rw [map_eq_pure_bind]
  exact .bind hParser fun value _ _ => .pure (change value)

theorem eat (token : Token) : (eat token).LooksAhead ahead cursor :=
  .bind (.takeIf _) fun found _ _ => .pure found.isSome

theorem expect (token : Token) (context : String) :
    (expect token context).LooksAhead ahead cursor := by
  refine .bind (.next _ _) fun found afterFound _ => ?_
  split
  · exact .pure ()
  · exact .rejectLast _

theorem word (expected context : String) : (word expected context).LooksAhead ahead cursor :=
  .bind (.next _ _) fun token _ _ => .checkWord token context

/-! ## Blocks and lists -/

/-- What is read inside a block ends with it. -/
theorem inside (context : String) (body : Parser α) :
    (inside context body).LooksAhead ahead cursor := by
  intro later value after hRun hLeft
  obtain ⟨block, rest, last, hSplit, hOpen, hBody, rfl⟩ := exists_of_run_inside hRun
  have hLater : later.length ≤ rest.length := Nat.le_of_add_right_le hLeft
  obtain ⟨before, rfl, hShort⟩ := Cursor.splitBlock?_of_append hSplit hLater
  refine ⟨blockEnd cursor block before, rfl, ?_⟩
  have hSame : blockCursor (cursor.extended later) block = blockCursor cursor block := rfl
  rw [run_inside context body hShort hOpen, ← hSame, hBody]

/-- The head after an item takes a token, so an item may look at that. -/
theorem loop {head : Head η} {item : σ → η → Parser σ}
    (hHead : ∀ start, head.toParser.LooksAhead 0 start)
    (hTakes : head.toParser.Consumes fun _ => True)
    (hItem : ∀ state found start, (item state found).LooksAhead 1 start)
    (state : σ) (cursor : Cursor) : (loop head item state).LooksAhead 0 cursor := by
  induction hLeft : cursor.left using Nat.strongRecOn generalizing state cursor with
  | ind left ih =>
      rw [loop_eq]
      refine .bind (hHead cursor) fun found between hRun => ?_
      cases found with
      | none => exact .pure state
      | some found =>
          have hLess := head.progress cursor _ between hRun rfl
          refine .bind_takes (hItem state found between) ?_ fun grown after hItemRun => ?_
          · exact fun grown start final last hRest =>
              hTakes.loop grown start final last hRest trivial
          · have hLe := (onward_of_ok hItemRun).left_le
            exact ih after.left (by omega) grown after rfl

theorem memberHead (context : String) :
    (memberHead context).toParser.LooksAhead ahead cursor := by
  refine .bind .takeComments fun _ afterComments _ => ?_
  refine .bind (.next _ _) fun first afterFirst _ => ?_
  exact .pure _

theorem commaHead (close : Token) (context : String) :
    (commaHead close context).toParser.LooksAhead ahead cursor := by
  refine .bind (.next _ _) fun token afterToken _ => ?_
  split
  · exact .pure _
  · split
    · exact .pure _
    · exact .rejectLast _

/-- The members of a braced list. -/
theorem memberLoop {item : σ → List String × Token → Parser σ}
    (hItem : ∀ state head start, (item state head).LooksAhead 0 start) (context : String)
    (state : σ) : (Parser.loop (Parser.memberHead context) item state).LooksAhead 0 cursor :=
  .loop (fun _ => .memberHead context) (.bind_right fun _ => .bind_left (next_consumes _ _))
    (fun state head start => (hItem state head start).of_zero) state cursor

/-- The items of a list with commas may look at the comma. -/
theorem commaList {item : σ → Parser σ} (hItem : ∀ state start, (item state).LooksAhead 1 start)
    (close : Token) (context : String) (state : σ) :
    (commaList close context item state).LooksAhead 0 cursor := by
  have hTakes : (Parser.commaHead close context).toParser.Consumes fun _ => True :=
    .bind_left (next_consumes _ _)
  refine .bind_takes (hItem state cursor) ?_ fun first after _ =>
    .loop (fun _ => .commaHead close context) hTakes (fun state _ start => hItem state start) _ _
  exact fun first start final last hRun => hTakes.loop first start final last hRun trivial

end LooksAhead
end Parser
end ProtoIdl
