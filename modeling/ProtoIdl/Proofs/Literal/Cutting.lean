import Mathlib.Data.List.Permutation
import ProtoIdl.Proofs.Literal.Grouping

/-!
# Cutting literals and joining the pieces

String literals of a source may be cut into pieces before they are joined again.  The tokens of
the source come back exactly if the pieces of each literal are a group: the first piece opens
the literal and has no other quote, the last one closes it and has no other quote, and no piece
between them closes one.  A quote character of either kind inside of a literal can therefore
keep it in pieces, and without such a character every cutting is undone.
-/

namespace ProtoIdl
namespace Token

/-- The tokens with some of their literals cut into pieces, none of which is empty. -/
structure IsCutting (tokens : List Token) (cuts : List (List Token)) : Prop where
  join_eq : cuts.map String.join = tokens
  wholeOrLiteral : ∀ pieces ∈ cuts, (∃ token, pieces = [token]) ∨
    startsQuoted (String.join pieces) = true ∧ ∀ piece ∈ pieces, piece ≠ ""

/-- Pieces that add nothing to a text are empty. -/
theorem eq_empty_of_join_append {first second : List Token}
    (hJoin : String.join (first ++ second) = String.join first) : ∀ piece ∈ second, piece = "" := by
  have hNil : (first ++ second).flatMap String.toList = first.flatMap String.toList := by
    rw [← String.toList_join, ← String.toList_join, hJoin]
  rw [List.flatMap_append, List.append_right_eq_self, List.flatMap_eq_nil_iff] at hNil
  exact fun piece hMem => String.toList_eq_nil_iff.mp (hNil piece hMem)

/-- Two fronts of one list that make the same text are one, if no piece of the first is empty
and the second does not end with an empty one. -/
theorem eq_of_join_eq {pieces middle after later : List Token} {last : Token}
    (hTokens : pieces ++ after = (middle ++ [last]) ++ later)
    (hText : String.join pieces = String.join (middle ++ [last]))
    (hPieces : ∀ piece ∈ pieces, piece ≠ "") (hLast : last ≠ "") : pieces = middle ++ [last] := by
  -- whichever of the two is longer, what it has more than the other is empty
  rcases List.append_eq_append_iff.mp hTokens with ⟨extra, hMore, -⟩ | ⟨extra, hMore, -⟩
  · rw [hMore] at hText
    have hEmpty := eq_empty_of_join_append hText.symm
    rcases List.eq_nil_or_concat extra with rfl | ⟨init, final, rfl⟩
    · simpa using hMore.symm
    · rw [List.concat_eq_append, ← List.append_assoc] at hMore
      obtain ⟨-, hFinal⟩ := List.append_inj' hMore rfl
      cases hFinal
      exact absurd (hEmpty last (by simp)) hLast
  · rw [hMore] at hText hPieces
    have hEmpty := eq_empty_of_join_append hText
    have hNil : extra = [] := List.eq_nil_iff_forall_not_mem.mpr fun piece hMem =>
      hPieces piece (List.mem_append_right _ hMem) (hEmpty piece hMem)
    rw [hMore, hNil, List.append_nil]

/-- The first pieces of a literal do not make the whole of it. -/
theorem join_ne_of_piece {first second : Token} {rest : List Token} (hPiece : second ≠ "") :
    String.join (first :: second :: rest) ≠ first := by
  intro hJoin
  have hAll : String.join ([first] ++ second :: rest) = String.join [first] := by
    simpa [String.join_cons] using hJoin
  exact hPiece (eq_empty_of_join_append hAll second (by simp))

variable {tokens : List Token} {cuts : List (List Token)}

/-- Whole tokens that open nothing, and the pieces of literals, are a grouping if each of them
is a group. -/
theorem IsCutting.isGrouping (hCuts : IsCutting tokens cuts)
    (hWhole : ∀ token ∈ tokens, token.opensQuote = false)
    (hGroups : ∀ pieces ∈ cuts, IsGroup pieces) : IsGrouping cuts.flatten cuts where
  flatten_eq := rfl
  isGroup := hGroups
  leftOpen := by
    refine List.pairwise_of_forall_mem_list ?_
    rintro _ hMem _ _ token rfl hOpens
    have hToken : token ∈ tokens := by
      rw [← hCuts.join_eq]
      simpa [String.join_cons] using List.mem_map_of_mem (f := String.join) hMem
    rw [hWhole token hToken] at hOpens
    cases hOpens

/-- The pieces of a literal that come back as one token are a group, and nothing after them has
been joined to them. -/
theorem isGroup_of_coalesce {first second : Token} {rest after later : List Token}
    (hPieces : ∀ piece ∈ second :: rest, piece ≠ "")
    (hJoined : coalesce (first :: (second :: rest ++ after)) =
      String.join (first :: second :: rest) :: later) :
    IsGroup (first :: second :: rest) ∧ coalesce after = later := by
  have hPiece : second ≠ "" := hPieces second (by simp)
  have hAlone : ∀ {others : List Token},
      first :: others ≠ String.join (first :: second :: rest) :: later := by
    intro others hSame
    exact join_ne_of_piece hPiece (List.cons.inj hSame).1.symm
  cases hFirst : first.opensQuote with
  | false =>
      rw [coalesce_cons hFirst] at hJoined
      exact absurd hJoined hAlone
  | true =>
      cases hSplit : splitAtClosing? (second :: rest ++ after) with
      | none =>
          rw [coalesce_cons_of_open (splitAtClosing?_eq_none_iff.mp hSplit)] at hJoined
          exact absurd hJoined hAlone
      | some parts =>
          obtain ⟨middle, last, -, hTokens, hMiddle, hLast⟩ :=
            splitAtClosing?_eq_some_iff.mp hSplit
          rw [hTokens, coalesce_pieces hFirst hMiddle hLast, List.cons.injEq, String.join_cons,
            String.join_cons, String.append_right_inj] at hJoined
          obtain ⟨hText, hLater⟩ := hJoined
          have hWhole : second :: rest ++ after = (middle ++ [last]) ++ parts.2 := by
            simpa using hTokens
          have hSome : last ≠ "" := by
            rintro rfl
            cases hLast
          have hSame : second :: rest = middle ++ [last] :=
            eq_of_join_eq hWhole hText.symm hPieces hSome
          rw [hSame, List.append_cancel_left_eq] at hWhole
          rw [hSame, hWhole]
          exact ⟨.pieces hFirst hMiddle hLast, hLater⟩

/-- The tokens come back exactly if the pieces of each of them are a group. -/
theorem coalesce_cuts_eq_iff (hCuts : IsCutting tokens cuts)
    (hWhole : ∀ token ∈ tokens, token.opensQuote = false) :
    coalesce cuts.flatten = tokens ↔ ∀ pieces ∈ cuts, IsGroup pieces := by
  refine ⟨fun hJoined => ?_, fun hGroups => ?_⟩
  · obtain ⟨rfl, hCut⟩ := hCuts
    induction cuts with
    | nil => simp
    | cons pieces cuts ih =>
        rw [List.flatten_cons, List.map_cons] at hJoined
        rw [List.map_cons, List.forall_mem_cons] at hWhole
        obtain ⟨hFirst, hRest⟩ := List.forall_mem_cons.mp hCut
        have hLater : IsGroup pieces ∧ coalesce cuts.flatten = cuts.map String.join := by
          rcases pieces with _ | ⟨first, _ | ⟨second, rest⟩⟩
          · exact absurd hFirst (by simp [startsQuoted])
          · have hPlain : first.opensQuote = false := by simpa [String.join_cons] using hWhole.1
            rw [List.singleton_append, coalesce_cons hPlain] at hJoined
            exact ⟨.single first, (List.cons.inj hJoined).2⟩
          · have hPieces := hFirst.resolve_left (by simp)
            exact isGroup_of_coalesce (fun piece hMem => hPieces.2 piece (by simp [hMem])) hJoined
        exact List.forall_mem_cons.mpr ⟨hLater.1, ih hRest hWhole.2 hLater.2⟩
  · rw [coalesce_of_isGrouping (hCuts.isGrouping hWhole hGroups), hCuts.join_eq]

/-! ## Literals with quotes inside of them -/

/-- However a literal without quotes inside of it is cut, the pieces are a group. -/
theorem isGroup_of_join {quote : Char} {body : List Char} {pieces : List Token}
    (hJoin : String.join pieces = (Lexeme.literal quote body).token)
    (hPieces : ∀ piece ∈ pieces, piece ≠ "") (hQuote : isQuote quote = true)
    (hBody : ∀ c ∈ body, isQuote c = false) : IsGroup pieces := by
  have hText : pieces.flatMap String.toList = quote :: (body ++ [quote]) := by
    rw [← String.toList_join, hJoin, Lexeme.toList_literal]
  rcases pieces with _ | ⟨first, rest⟩
  · simp at hText
  rcases List.eq_nil_or_concat rest with rfl | ⟨middle, last, rfl⟩
  · exact .single first
  rw [List.concat_eq_append] at hText hPieces ⊢
  obtain ⟨head, opened, hFirst⟩ := List.exists_cons_of_ne_nil
    (String.toList_eq_nil_iff.not.mpr (hPieces first (by simp)))
  obtain ⟨closing, final, hLast⟩ := List.eq_nil_or_concat last.toList |>.resolve_left
    (String.toList_eq_nil_iff.not.mpr (hPieces last (by simp)))
  -- between the two outer quotes, the pieces make the body
  obtain ⟨rfl, hSame⟩ : head = quote ∧
      (opened ++ (middle.flatMap String.toList ++ closing)) ++ [final] = body ++ [quote] := by
    simpa [hFirst, hLast] using hText
  obtain ⟨rfl, ⟨⟩⟩ := List.append_inj' hSame rfl
  simp only [List.forall_mem_append, List.mem_flatMap, forall_exists_index, and_imp] at hBody
  obtain ⟨hOpened, hMiddle, hClosing⟩ := hBody
  refine .pieces ?_ (fun piece hMem => ?_) ?_
  · simp only [opensQuote, hFirst, hQuote, Bool.true_and, Bool.not_eq_true', List.any_eq_false,
      Bool.not_eq_true]
    exact hOpened
  · cases hCloses : piece.closesQuote with
    | false => rfl
    | true =>
        obtain ⟨other, hOther, hIs⟩ := exists_quote_of_closesQuote hCloses
        rw [hMiddle other piece hMem hOther] at hIs
        cases hIs
  · have hDrop : (closing ++ [head]).dropWhile (fun c => !isQuote c) = [head] := by
      rw [List.dropWhile_append_of_pos fun c hMem => by simp [hClosing c hMem]]
      simp [hQuote]
    rw [closesQuote, hLast, List.concat_eq_append, hDrop]

/-- The pieces, in place of the token that they make. -/
def cutInto (pieces : List Token) (token : Token) : List Token :=
  if token = String.join pieces then pieces else [token]

/-- Every literal of one kind can be cut into pieces. -/
theorem isCutting_map_cutInto {pieces : List Token}
    (hQuoted : startsQuoted (String.join pieces) = true) (hPieces : ∀ piece ∈ pieces, piece ≠ "")
    (tokens : List Token) : IsCutting tokens (tokens.map (cutInto pieces)) where
  join_eq := by
    have hJoin : ∀ token, String.join (cutInto pieces token) = token := by
      intro token
      unfold cutInto
      split
      · next hSame => exact hSame.symm
      · simp [String.join_cons]
    rw [List.map_map]
    exact List.map_id'' hJoin tokens
  wholeOrLiteral := by
    intro cut hCut
    obtain ⟨token, -, rfl⟩ := List.mem_map.mp hCut
    unfold cutInto
    split
    · exact .inr ⟨hQuoted, hPieces⟩
    · exact .inl ⟨token, rfl⟩

/-- A literal with a quote inside of it can be cut so that its pieces are no group: after that
quote. -/
theorem exists_cutting_not_isGroup {quote : Char} {body : List Char}
    (hMem : (Lexeme.literal quote body).token ∈ tokens) (hQuote : isQuote quote = true)
    {inner : Char} (hInner : inner ∈ body) (hIs : isQuote inner = true) :
    ∃ cuts, IsCutting tokens cuts ∧ ∃ pieces ∈ cuts, ¬IsGroup pieces := by
  obtain ⟨before, after, rfl⟩ := List.append_of_mem hInner
  let first : Token := String.ofList (quote :: (before ++ [inner]))
  let second : Token := String.ofList (after ++ [quote])
  have hFirst : first.opensQuote = false := by simp [first, opensQuote, hIs]
  have hJoin : String.join [first, second] =
      (Lexeme.literal quote (before ++ inner :: after)).token := by
    rw [← String.toList_inj, String.toList_join, Lexeme.toList_literal]
    simp [first, second]
  have hQuoted : startsQuoted (String.join [first, second]) = true := by
    rw [hJoin, startsQuoted, Lexeme.toList_literal]
    exact hQuote
  have hPieces : ∀ piece ∈ [first, second], piece ≠ "" := by
    simp [first, second, ← String.toList_eq_nil_iff]
  refine ⟨_, isCutting_map_cutInto hQuoted hPieces tokens, [first, second], ?_, fun hGroup => ?_⟩
  · exact List.mem_map.mpr ⟨_, hMem, by rw [cutInto, if_pos hJoin.symm]⟩
  · rw [hGroup.opensQuote] at hFirst
    cases hFirst

/-- Joining undoes a cutting of the tokens of a source exactly if the pieces of each token are a
group, and the source is then parsed as if it had not been cut.  It undoes every cutting exactly
if no literal of the source has a quote of either kind between its own two. -/
theorem coalesce_cuttings {source : String} (hTokens : tokenize source = .ok tokens) :
    (∀ cuts, IsCutting tokens cuts →
      (coalesce cuts.flatten = tokens ↔ ∀ pieces ∈ cuts, IsGroup pieces) ∧
        ((∀ pieces ∈ cuts, IsGroup pieces) →
          ∀ settings, parseTokens cuts.flatten settings = parse source settings)) ∧
      ((∀ cuts, IsCutting tokens cuts → coalesce cuts.flatten = tokens) ↔
        ∀ quote body, isQuote quote = true → (Lexeme.literal quote body).token ∈ tokens →
          ∀ c ∈ body, isQuote c = false) := by
  have hWhole := Scanner.opensQuote_of_mem_tokens hTokens
  refine ⟨fun cuts hCuts => ⟨coalesce_cuts_eq_iff hCuts hWhole, fun hGroups settings => ?_⟩,
    fun hAll quote body hQuote hMem c hBody => ?_, fun hPlain cuts hCuts => ?_⟩
  · have hJoined := (coalesce_cuts_eq_iff hCuts hWhole).mpr hGroups
    rw [parse_of_tokenize hTokens]
    unfold parseTokens
    rw [hJoined]
    rfl
  · by_contra hIs
    rw [Bool.not_eq_false] at hIs
    obtain ⟨cuts, hCuts, pieces, hPieces, hNone⟩ :=
      exists_cutting_not_isGroup hMem hQuote hBody hIs
    exact hNone ((coalesce_cuts_eq_iff hCuts hWhole).mp (hAll cuts hCuts) pieces hPieces)
  · refine (coalesce_cuts_eq_iff hCuts hWhole).mpr fun pieces hPieces => ?_
    rcases hCuts.wholeOrLiteral pieces hPieces with ⟨token, rfl⟩ | ⟨hQuoted, hSome⟩
    · exact .single token
    · have hMem : String.join pieces ∈ tokens := by
        rw [← hCuts.join_eq]
        exact List.mem_map_of_mem hPieces
      obtain ⟨quote, body, hText, hQuote, -⟩ :=
        Scanner.exists_literal_of_mem_tokens hTokens hMem hQuoted
      exact isGroup_of_join hText hSome hQuote (hPlain quote body hQuote (hText ▸ hMem))

/-- A literal that is cut around a semicolon is joined again. -/
theorem coalesce_cuttings_semicolon :
    tokenize "option x = \"a;b\";" = .ok ["option", "x", "=", "\"a;b\"", ";"] ∧
      coalesce ["option", "x", "=", "\"a", ";", "b\"", ";"] =
        ["option", "x", "=", "\"a;b\"", ";"] ∧
      ∀ settings, parseTokens ["option", "x", "=", "\"a", ";", "b\"", ";"] settings =
        parse "option x = \"a;b\";" settings := by
  have hTokens : tokenize "option x = \"a;b\";" = .ok ["option", "x", "=", "\"a;b\"", ";"] := by
    cbv
  let cuts : List (List Token) := [["option"], ["x"], ["="], ["\"a", ";", "b\""], [";"]]
  have hQuoted : startsQuoted "\"a;b\"" = true := by decide
  have hCuts : IsCutting ["option", "x", "=", "\"a;b\"", ";"] cuts :=
    ⟨by decide, by simp [cuts, hQuoted]⟩
  have hGroups : ∀ pieces ∈ cuts, IsGroup pieces := by
    have hLiteral : IsGroup ["\"a", ";", "b\""] :=
      show IsGroup ("\"a" :: ([";"] ++ ["b\""])) from .pieces (by decide) (by decide) (by decide)
    simp [cuts, IsGroup.single, hLiteral]
  obtain ⟨hJoined, hParse⟩ := (coalesce_cuttings hTokens).1 cuts hCuts
  exact ⟨hTokens, hJoined.mpr hGroups, hParse hGroups⟩

/-- A literal with an apostrophe stays in pieces when it is cut in front of that. -/
theorem apostrophe_not_joined :
    tokenize "option x = \"it's\";" = .ok ["option", "x", "=", "\"it's\"", ";"] ∧
      IsCutting ["option", "x", "=", "\"it's\"", ";"]
        [["option"], ["x"], ["="], ["\"it", "'s\""], [";"]] ∧
      coalesce ["option", "x", "=", "\"it", "'s\"", ";"] =
        ["option", "x", "=", "\"it", "'s\"", ";"] := by
  have hTokens : tokenize "option x = \"it's\";" =
      .ok ["option", "x", "=", "\"it's\"", ";"] := by cbv
  have hQuoted : startsQuoted "\"it's\"" = true := by decide
  have hCuts : IsCutting ["option", "x", "=", "\"it's\"", ";"]
      [["option"], ["x"], ["="], ["\"it", "'s\""], [";"]] :=
    ⟨by decide, by simp [hQuoted]⟩
  exact ⟨hTokens, hCuts, coalesce_of_not_closesQuote (by decide)⟩

end Token
end ProtoIdl
