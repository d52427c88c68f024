import ProtoIdl.Proofs.Parser.Yields

/-!
# What parsers take

`parser.Spans holds cursor` says of every successful run from the cursor that its answer and
the tokens it has taken are in the relation `holds`.  The tokens of a composed run are those
of its parts, one after the other; a loop is asked for a relation between its first state,
its last state and its tokens that one more item keeps.
-/

namespace ProtoIdl
namespace Parser

/-- Every answer from the cursor, with the tokens taken for it, is in the relation. -/
def Spans (parser : Parser α) (holds : α → List Token → Prop) (cursor : Cursor) : Prop :=
  ∀ value after, parser.run cursor = .ok value after →
    ∃ used, cursor.rest = used ++ after.rest ∧ holds value used

namespace Spans

variable {cursor : Cursor}

section Composition

variable {parser : Parser α} {holds : α → List Token → Prop}

theorem mono {stronger : α → List Token → Prop} (hSpans : Spans parser stronger cursor)
    (hImp : ∀ value used, stronger value used → holds value used) :
    Spans parser holds cursor := by
  intro value after hRun
  obtain ⟨used, hUsed, hStronger⟩ := hSpans value after hRun
  exact ⟨used, hUsed, hImp value used hStronger⟩

/-- The answer may be asked about by itself. -/
theorem and_yields {answers : α → Prop} (hSpans : Spans parser holds cursor)
    (hYields : Yields parser answers cursor) :
    Spans parser (fun value used => holds value used ∧ answers value) cursor := by
  intro value after hRun
  obtain ⟨used, hUsed, hHolds⟩ := hSpans value after hRun
  exact ⟨used, hUsed, hHolds, hYields value after hRun⟩

theorem pure {value : α} (hValue : holds value []) : Spans (pure value) holds cursor := by
  intro answer after hRun
  cases hRun
  exact ⟨[], rfl, hValue⟩

theorem fail (fault : ParseError) : Spans (fail fault) holds cursor :=
  fun _ _ hRun => nomatch hRun

theorem rejectNth (n : Nat) (context : String) : Spans (rejectNth n context) holds cursor :=
  fun _ _ hRun => nomatch hRun

theorem rejectLast (context : String) : Spans (rejectLast context) holds cursor :=
  fun _ _ hRun => nomatch hRun

theorem rejectEnd (expected context : String) :
    Spans (rejectEnd expected context) holds cursor :=
  fun _ _ hRun => nomatch hRun

/-- The second parser is asked about its tokens after those of the first. -/
theorem bind {first : Parser α} {second : α → Parser β} {between : α → List Token → Prop}
    {holds : β → List Token → Prop} (hFirst : Spans first between cursor)
    (hSecond : ∀ value used after, first.run cursor = .ok value after → between value used →
      Spans (second value) (fun answer more => holds answer (used ++ more)) after) :
    Spans (first >>= second) holds cursor := by
  intro answer last hRun
  obtain ⟨value, after, hValue, hAnswer⟩ := run_bind_eq_ok_iff.mp hRun
  obtain ⟨used, hUsed, hBetween⟩ := hFirst value after hValue
  obtain ⟨more, hMore, hHolds⟩ := hSecond value used after hValue hBetween answer last hAnswer
  exact ⟨used ++ more, by rw [hUsed, hMore, List.append_assoc], hHolds⟩

theorem map {change : α → β} {holds : β → List Token → Prop}
    (hSpans : Spans parser (fun value used => holds (change value) used) cursor) :
    Spans (change <$> parser) holds cursor := by
  rw [map_eq_pure_bind]
  refine .bind hSpans fun value used _ _ hUsed => .pure ?_
  rwa [List.append_nil]

/-- What is made of the answer takes no tokens. -/
theorem returning {change : α → β} {shape : List Token → Prop}
    (hSpans : Spans parser (fun _ used => shape used) cursor) :
    Spans (parser >>= fun value => Pure.pure (change value)) (fun _ used => shape used) cursor := by
  refine .bind hSpans fun value used _ _ hUsed => .pure ?_
  rwa [List.append_nil]

end Composition

/-! ## Steps without tokens -/

theorem ofExcept (result : Except ParseError α) :
    Spans (ofExcept result) (fun value used => used = [] ∧ result = .ok value) cursor := by
  intro value after hRun
  obtain ⟨hResult, rfl⟩ := eq_of_run_ofExcept hRun
  exact ⟨[], rfl, rfl, hResult⟩

theorem peekNth (n : Nat) : Spans (peekNth n) (fun _ used => used = []) cursor := by
  intro value after hRun
  cases hRun
  exact ⟨[], rfl, rfl⟩

theorem enter : Spans enter (fun _ used => used = []) cursor := by
  intro value after hRun
  unfold Parser.enter Cursor.enter at hRun
  dsimp only at hRun
  split at hRun
  · next hEnter =>
      split at hEnter
      · cases hEnter
        cases hRun
        exact ⟨[], rfl, rfl⟩
      · cases hEnter
  · cases hRun

theorem leave : Spans leave (fun _ used => used = []) cursor := by
  intro value after hRun
  cases hRun
  exact ⟨[], rfl, rfl⟩

/-- A numeral has been taken before it is read. -/
theorem numeral (interval : Numeral.Interval) (literal : Token) (context : String) :
    Spans (numeral interval literal context)
      (fun value used => used = [] ∧ Numeral.within? interval literal = some value) cursor := by
  unfold Parser.numeral
  split
  · next hValue => exact .pure ⟨rfl, hValue⟩
  · exact .fail _

theorem checkWord (token : Token) (context : String) :
    Spans (checkWord token context)
      (fun word used => used = [] ∧ word = token ∧ token.isWordLike = true) cursor := by
  unfold Parser.checkWord
  split
  · next hWord => exact .pure ⟨rfl, rfl, hWord⟩
  · exact .rejectLast _

/-! ## Single tokens -/

theorem advance :
    Spans advance (fun token used => used = token.toList) cursor := by
  intro value after hRun
  unfold Parser.advance at hRun
  dsimp only at hRun
  split at hRun
  · cases hRun
    exact ⟨[], rfl, rfl⟩
  · next token rest hRest =>
      cases hRun
      exact ⟨[token], hRest, rfl⟩

theorem takeIf (accepts : Token → Bool) :
    Spans (takeIf accepts)
      (fun token used => used = token.toList ∧ ∀ found ∈ token, accepts found = true)
      cursor := by
  intro value after hRun
  unfold Parser.takeIf at hRun
  dsimp only at hRun
  split at hRun
  · cases hRun
    exact ⟨[], rfl, rfl, fun _ hFound => absurd hFound (Option.not_mem_none _)⟩
  · next token rest hRest =>
      split at hRun
      · next hAccepts =>
          cases hRun
          refine ⟨[token], hRest, rfl, ?_⟩
          rintro found hFound
          cases hFound
          exact hAccepts
      · cases hRun
        exact ⟨[], rfl, rfl, fun _ hFound => absurd hFound (Option.not_mem_none _)⟩

theorem eat (token : Token) :
    Spans (eat token)
      (fun taken used => taken = true ∧ used = [token] ∨ taken = false ∧ used = []) cursor := by
  refine .bind (.takeIf _) fun taken used _ _ hTaken => .pure ?_
  obtain ⟨rfl, hFound⟩ := hTaken
  cases taken with
  | none => exact .inr ⟨rfl, rfl⟩
  | some found => exact .inl ⟨rfl, by simpa using hFound⟩

theorem next (expected context : String) :
    Spans (next expected context) (fun token used => used = [token]) cursor := by
  refine .bind .advance fun taken used _ _ hTaken => ?_
  subst hTaken
  cases taken with
  | none => exact .rejectEnd _ _
  | some token => exact .pure rfl

theorem expect (token : Token) (context : String) :
    Spans (expect token context) (fun _ used => used = [token]) cursor := by
  refine .bind (.next _ _) fun found used _ _ hUsed => ?_
  subst hUsed
  split
  · next hSame => exact .pure (by rw [hSame, List.append_nil])
  · exact .rejectLast _

theorem word (expected context : String) :
    Spans (word expected context) (fun token used => used = [token] ∧ token.isWordLike = true)
      cursor := by
  refine .bind (.next _ _) fun found used _ _ hUsed => ?_
  subst hUsed
  refine .mono (.checkWord _ _) ?_
  rintro value more ⟨rfl, rfl, hWord⟩
  exact ⟨rfl, hWord⟩

section Tokens

variable {holds : β → List Token → Prop}

/-- What follows a token is asked about its tokens after that one. -/
theorem next_bind {expected context : String} {second : Token → Parser β}
    (hSecond : ∀ token after,
      Spans (second token) (fun answer more => holds answer (token :: more)) after) :
    Spans (Parser.next expected context >>= second) holds cursor := by
  refine .bind (.next _ _) fun token used after _ hUsed => ?_
  subst hUsed
  exact hSecond token after

theorem expect_bind {token : Token} {context : String} {second : Unit → Parser β}
    (hSecond : ∀ after,
      Spans (second ()) (fun answer more => holds answer (token :: more)) after) :
    Spans (Parser.expect token context >>= second) holds cursor := by
  refine .bind (.expect _ _) fun _ used after _ hUsed => ?_
  subst hUsed
  exact hSecond after

theorem word_bind {expected context : String} {second : Token → Parser β}
    (hSecond : ∀ token after, token.isWordLike = true →
      Spans (second token) (fun answer more => holds answer (token :: more)) after) :
    Spans (Parser.word expected context >>= second) holds cursor := by
  refine .bind (.word _ _) fun token used after _ hUsed => ?_
  obtain ⟨rfl, hWord⟩ := hUsed
  exact hSecond token after hWord

/-- What follows a token that may be there is asked about both cases. -/
theorem eat_bind {token : Token} {second : Bool → Parser β}
    (hTaken : ∀ after,
      Spans (second true) (fun answer more => holds answer (token :: more)) after)
    (hOther : ∀ after, Spans (second false) holds after) :
    Spans (Parser.eat token >>= second) holds cursor := by
  refine .bind (.eat _) fun taken used after _ hUsed => ?_
  rcases hUsed with ⟨rfl, rfl⟩ | ⟨rfl, rfl⟩
  · exact hTaken after
  · exact hOther after

theorem numeral_bind {interval : Numeral.Interval} {literal : Token} {context : String}
    {second : Int → Parser β}
    (hSecond : ∀ value after, Numeral.within? interval literal = some value →
      Spans (second value) holds after) :
    Spans (Parser.numeral interval literal context >>= second) holds cursor := by
  refine .bind (.numeral _ _ _) fun value used after _ hUsed => ?_
  obtain ⟨rfl, hValue⟩ := hUsed
  exact hSecond value after hValue

/-- What follows a look ahead is asked about its own tokens. -/
theorem peekNth_bind {n : Nat} {second : Option Token → Parser β}
    (hSecond : ∀ ahead after, Spans (second ahead) holds after) :
    Spans (Parser.peekNth n >>= second) holds cursor := by
  refine .bind (.peekNth n) fun ahead used after _ hUsed => ?_
  subst hUsed
  exact hSecond ahead after

end Tokens

theorem takeComments :
    Spans takeComments (fun _ used => ∀ token ∈ used, token.isComment = true) cursor := by
  intro value after hRun
  cases hRun
  exact ⟨_, List.takeWhile_append_dropWhile.symm, List.all_eq_true.mp List.all_takeWhile⟩

/-! ## Blocks and lists -/

/-- The tokens of a block are those that its inside takes, if that takes them all, and the
closing brace. -/
theorem inside {body : Parser α} {context : String} {holds : α → List Token → Prop}
    (hBody : ∀ entered : Cursor, entered.left < cursor.left → Spans body holds entered)
    (hAll : ∀ entered value last, body.run entered = .ok value last → last.rest = []) :
    Spans (inside context body)
      (fun value used => ∃ inner, used = inner ++ [Token.closeBrace] ∧ holds value inner)
      cursor := by
  intro value after hRun
  obtain ⟨block, later, last, hSplit, _, hInner, rfl⟩ := exists_of_run_inside hRun
  obtain ⟨used, hUsed, hHolds⟩ := hBody _ (left_blockCursor_lt hSplit) value last hInner
  have hBlock : block = used := by
    rw [hAll _ value last hInner, List.append_nil] at hUsed
    exact hUsed
  subst hBlock
  refine ⟨block ++ [Token.closeBrace], ?_, block, rfl, hHolds⟩
  rw [Cursor.append_of_splitBlock? hSplit]
  simp [blockEnd]

/-- A relation between the first state, the last state and the tokens of a loop holds if it
holds where the head finds nothing, and one more item keeps it. -/
theorem loop {head : Head η} {item : σ → η → Parser σ} {heads : Option η → List Token → Prop}
    {items : σ → η → σ → List Token → Prop} {holds : σ → σ → List Token → Prop}
    (hHead : ∀ start, Spans head.toParser heads start)
    (hItem : ∀ state found start, start.left < cursor.left →
      Spans (item state found) (items state found) start)
    (hDone : ∀ state used, heads none used → holds state state used)
    (hStep : ∀ state found grown final before used more, heads (some found) before →
      items state found grown used → holds grown final more →
        holds state final (before ++ (used ++ more)))
    (state : σ) : Spans (loop head item state) (holds state) cursor := by
  induction hLeft : cursor.left using Nat.strongRecOn generalizing state cursor with
  | ind left ih =>
      rw [loop_eq]
      refine .bind (hHead cursor) fun found before between hRun hBefore => ?_
      cases found with
      | none => exact .pure (by simpa using hDone state before hBefore)
      | some found =>
          have hLess := head.progress cursor _ between hRun rfl
          refine .bind (hItem state found between hLess) fun grown used after hGrown hUsed => ?_
          have hLe := (onward_of_ok hGrown).left_le
          refine .mono (ih after.left (by omega) ?_ grown rfl) fun final more hMore =>
            hStep state found grown final before used more hBefore hUsed hMore
          exact fun state found start hStart => hItem state found start (by omega)

/-- A class of the tokens of a loop, whatever its states are. -/
theorem loop_tokens {head : Head η} {item : σ → η → Parser σ}
    {heads : Option η → List Token → Prop} {items : η → List Token → Prop}
    {holds : List Token → Prop} (hHead : ∀ start, Spans head.toParser heads start)
    (hItem : ∀ state found start, start.left < cursor.left →
      Spans (item state found) (fun _ used => items found used) start)
    (hDone : ∀ used, heads none used → holds used)
    (hStep : ∀ found before used more, heads (some found) before → items found used →
      holds more → holds (before ++ (used ++ more)))
    (state : σ) : Spans (Parser.loop head item state) (fun _ used => holds used) cursor := by
  apply loop hHead hItem
  · exact fun _ used hUsed => hDone used hUsed
  · exact fun _ found _ _ before used more => hStep found before used more

end Spans
end Parser
end ProtoIdl
