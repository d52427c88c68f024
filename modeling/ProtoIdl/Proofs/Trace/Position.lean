import Mathlib.Data.List.Permutation
import ProtoIdl.Parse
import ProtoIdl.Proofs.Link.Linking
import ProtoIdl.Proofs.Token.Quotes
import ProtoIdl.Proofs.Trace.Grammar

/-!
# The positions of errors

A cursor views a stretch of the token stream: its tokens stand there from its base on, and
after them comes the end of the stream, or the brace that closes the block.  Steps keep
this, and so does going into a block, where the positions are counted anew.  An error
therefore names the place in the whole stream of the token that it is about, at any
depth.
-/

namespace ProtoIdl

/-- What an error says about a place is right for the stream: a token that does not fit
stands at its index, and a construct without an end reaches up to the end of the stream
or up to a closing brace. -/
def ParseError.PlacedIn (stream : List Token) : ParseError → Prop
  | .unexpectedToken found _ index => stream[index]? = some found
  | .unterminated _ _ index =>
      index = stream.length ∨ stream[index]? = some Token.closeBrace
  | _ => True

/-- An error that names no position is right about it. -/
theorem ParseError.OfContent.placedIn {fault : ParseError} (hContent : fault.OfContent)
    (stream : List Token) : fault.PlacedIn stream := by
  cases fault with
  | unexpectedToken | unterminated => exact hContent.elim
  | _ => trivial

/-! ## Views of the stream -/

namespace Cursor

/-- The cursor is over a stretch of the stream that starts at its base and reaches up to
the end of the stream or up to a closing brace. -/
def Views (cursor : Cursor) (stream : List Token) : Prop :=
  ∃ before after, stream = before ++ (cursor.seen.reverse ++ cursor.rest) ++ after ∧
    before.length = cursor.base ∧
    (after = [] ∨ after.head? = some Token.closeBrace)

/-- At its start a cursor is over the whole stream. -/
theorem views_ofTokens (stream : List Token) (limit : Nat) :
    (ofTokens stream limit).Views stream :=
  ⟨[], [], by simp [ofTokens], rfl, .inl rfl⟩

namespace Views

variable {cursor : Cursor} {stream : List Token}

/-- Moving on changes nothing in what a cursor views. -/
theorem onward {later : Cursor} (hViews : cursor.Views stream) (hOnward : cursor.Onward later) :
    later.Views stream := by
  obtain ⟨before, after, hStream, hBefore, hAfter⟩ := hViews
  obtain ⟨hBase, _, used, hRest, hSeen⟩ := hOnward
  refine ⟨before, after, ?_, hBefore.trans hBase.symm, hAfter⟩
  rw [hStream, hSeen, hRest]
  simp

/-- The cursor over a block views the stream too: what comes after the block is the brace
that closes it. -/
theorem block {context : String} {taken after : Cursor} (hViews : cursor.Views stream)
    (hTake : (Parser.takeBlock context).run cursor = .ok taken after) : taken.Views stream := by
  -- what was after the cursor does not matter, for the brace stands before it
  obtain ⟨before, behind, hStream, hBefore, -⟩ := hViews
  unfold Parser.takeBlock at hTake
  dsimp only at hTake
  split at hTake
  · next block rest hSplit =>
      cases hTake
      refine ⟨before ++ cursor.seen.reverse, Token.closeBrace :: rest ++ behind, ?_, ?_,
        .inr rfl⟩
      · rw [hStream, append_of_splitBlock? hSplit]
        simp
      · simp [index, hBefore]
  · cases hTake

/-- A token ahead stands at its index in the stream. -/
theorem getElem?_ahead (hViews : cursor.Views stream) {n : Nat} {token : Token}
    (hAhead : cursor.rest[n]? = some token) : stream[cursor.index + n]? = some token := by
  obtain ⟨before, after, hStream, hBefore, -⟩ := hViews
  have hShort : n < cursor.rest.length := (List.getElem?_eq_some_iff.mp hAhead).choose
  have hPrefix : (before ++ cursor.seen.reverse).length = cursor.index := by
    simp [index, hBefore]
  have hSplit : stream = (before ++ cursor.seen.reverse) ++ (cursor.rest ++ after) := by
    simp [hStream]
  rw [hSplit, ← hPrefix, List.getElem?_append_right (by omega), Nat.add_sub_cancel_left,
    List.getElem?_append_left hShort, hAhead]

/-- The token passed last stands at its index in the stream. -/
theorem getElem?_last (hViews : cursor.Views stream) {token : Token} {earlier : List Token}
    (hSeen : cursor.seen = token :: earlier) :
    stream[cursor.base + earlier.length]? = some token := by
  obtain ⟨before, after, hStream, hBefore, -⟩ := hViews
  have hPrefix : (before ++ earlier.reverse).length = cursor.base + earlier.length := by
    simp [hBefore]
  have hSplit : stream = (before ++ earlier.reverse) ++ token :: (cursor.rest ++ after) := by
    simp [hStream, hSeen]
  rw [hSplit, ← hPrefix, List.getElem?_append_right (Nat.le_refl _), Nat.sub_self,
    List.getElem?_cons_zero]

/-- The tokens of a cursor end at the end of the stream or at a closing brace. -/
theorem stop_eq_or (hViews : cursor.Views stream) :
    cursor.stop = stream.length ∨ stream[cursor.stop]? = some Token.closeBrace := by
  obtain ⟨before, after, hStream, hBefore, hAfter⟩ := hViews
  have hPrefix : (before ++ (cursor.seen.reverse ++ cursor.rest)).length = cursor.stop := by
    simp [stop, index, left, hBefore, Nat.add_assoc]
  rcases hAfter with rfl | hClosed
  · left
    rw [← hPrefix, hStream, List.append_nil]
  · right
    rw [hStream, ← hPrefix, List.getElem?_append_right (Nat.le_refl _), Nat.sub_self,
      ← List.head?_eq_getElem?, hClosed]

/-! ## Errors at a position -/

theorem placedIn_unexpectedNth (hViews : cursor.Views stream) {n : Nat} (context : String)
    (hAhead : n < cursor.left) : (cursor.unexpectedNth n context).PlacedIn stream := by
  obtain ⟨token, hToken⟩ : ∃ token, cursor.rest[n]? = some token :=
    ⟨_, List.getElem?_eq_getElem hAhead⟩
  show stream[cursor.index + n]? = some ((cursor.rest[n]?).getD "")
  rw [hViews.getElem?_ahead hToken, hToken, Option.getD_some]

theorem placedIn_unexpectedLast (hViews : cursor.Views stream) (context : String)
    (hSeen : cursor.seen ≠ []) : (cursor.unexpectedLast context).PlacedIn stream := by
  unfold unexpectedLast
  split
  · next hNone => exact absurd hNone hSeen
  · next token earlier hLast => exact hViews.getElem?_last hLast

theorem placedIn_unterminated (hViews : cursor.Views stream) (expected context : String) :
    (cursor.unterminated expected context).PlacedIn stream :=
  hViews.stop_eq_or

end Views
end Cursor

/-! ## Runs -/

/-- A level is only refused for the limit. -/
theorem Cursor.fault_of_enter {cursor : Cursor} {fault : ParseError}
    (hFault : cursor.enter = .error fault) : fault = .tooDeep cursor.limit := by
  unfold enter at hFault
  split at hFault
  · cases hFault
  · cases hFault
    rfl

/-- The answer of a parser is not an error with a wrong position. -/
def Reply.PlacedIn (stream : List Token) : Reply α → Prop
  | .ok _ _ => True
  | .error fault _ => fault.PlacedIn stream

namespace Parser

variable {cursor : Cursor} {stream : List Token}

theorem placedIn_takeBlock (hViews : cursor.Views stream) (context : String) :
    ((takeBlock context).run cursor).PlacedIn stream := by
  unfold takeBlock
  dsimp only
  split
  · trivial
  · exact hViews.placedIn_unterminated Token.closeBrace context

theorem placedIn_enter : (enter.run cursor).PlacedIn stream := by
  unfold enter
  dsimp only
  split
  · trivial
  · next fault hEnter =>
      rw [Cursor.fault_of_enter hEnter]
      trivial

/-- A block is refused with a right position if its inside is. -/
theorem placedIn_inside {body : Parser α} {context : String} (hViews : cursor.Views stream)
    (hBody : ∀ block after entered, (takeBlock context).run cursor = .ok block after →
      block.enter = .ok entered → entered.Views stream → (body.run entered).PlacedIn stream) :
    ((inside context body).run cursor).PlacedIn stream := by
  have hTaken := placedIn_takeBlock hViews context
  unfold inside
  dsimp only
  split
  · next fault after hTake => rwa [hTake] at hTaken
  · next block after hTake =>
      split
      · next fault hEnter =>
          rw [Cursor.fault_of_enter hEnter]
          trivial
      · next entered hEnter =>
          have hInside := (hViews.block hTake).onward (Cursor.onward_of_enter hEnter)
          have hRead := hBody block after entered hTake hEnter hInside
          split
          · next fault _ hRun => rwa [hRun] at hRead
          · trivial

/-- A run that goes by primitive steps, from a cursor over the stream, does not end in an
error with a wrong position. -/
theorem Traced.placedIn {parser : Parser α} (hTraced : parser.Traced cursor)
    (hViews : cursor.Views stream) : (parser.run cursor).PlacedIn stream := by
  induction hTraced with
  | pure | peekNth | takeComments | leave => trivial
  | fail hContent => exact hContent.placedIn stream
  | @bind _ _ first second cursor _ _ ihFirst ihSecond =>
      rw [run_bind]
      have hFirst := ihFirst hViews
      cases hRun : first.run cursor with
      | error fault after => rwa [hRun] at hFirst
      | ok value after =>
          -- the second part starts where the first has stopped, over the same stream
          exact ihSecond value after hRun (hViews.onward (onward_of_ok hRun))
  | @rejectNth _ _ _ context hAhead => exact hViews.placedIn_unexpectedNth context hAhead
  | @rejectLast _ _ context hSeen => exact hViews.placedIn_unexpectedLast context hSeen
  | rejectEnd expected context => exact hViews.placedIn_unterminated expected context
  | @advance cursor =>
      unfold Parser.advance
      dsimp only
      split <;> trivial
  | @takeIf cursor accepts =>
      unfold Parser.takeIf
      dsimp only
      split
      · trivial
      · split <;> trivial
  | enter => exact placedIn_enter
  | inside _ ihBody => exact placedIn_inside hViews ihBody

end Parser

/-! ## Whole parses -/

/-- A fault of linking names no position. -/
theorem Schema.ofContent_of_linked {schema : Schema} {fault : ParseError}
    (hFault : schema.linked = .error fault) : fault.OfContent := by
  unfold Schema.linked at hFault
  split at hFault
  · cases hFault
  · next stuck stopped hLink =>
      cases hFault
      have hLinks := schema.links_link
      rw [hLink] at hLinks
      obtain ⟨earlier, addition, later, _, _, hRejects, _⟩ := hLinks.of_fault
      obtain ⟨target, _, hRefuses⟩ := hRejects
      rcases hRefuses with ⟨_, rfl⟩ | ⟨_, _, rfl⟩ <;> trivial

/-- A file is not refused with a wrong position. -/
theorem placedIn_of_readFile {stream : List Token} {settings : Settings} {fault : ParseError}
    (hFault : readFile stream settings = .error fault) : fault.PlacedIn stream := by
  have hPlaced : ((Grammar.file settings.version).run
      (.ofTokens stream settings.maxDepth)).PlacedIn stream :=
    (Grammar.traced_file settings.version).placedIn (Cursor.views_ofTokens stream _)
  unfold readFile at hFault
  split at hFault
  · cases hFault
  · next hRun =>
      cases hFault
      rwa [hRun] at hPlaced

/-- Whatever tokens are parsed, an error is right about its place among the joined
tokens. -/
theorem placedIn_of_parseTokens {tokens : List Token} {settings : Settings}
    {fault : ParseError} (hFault : parseTokens tokens settings = .error fault) :
    fault.PlacedIn (Token.coalesce tokens) := by
  unfold parseTokens at hFault
  cases hRead : readFile (Token.coalesce tokens) settings with
  | error refused =>
      rw [hRead] at hFault
      cases hFault
      exact placedIn_of_readFile hRead
  | ok schema =>
      rw [hRead] at hFault
      by_cases hLink : settings.link
      · have hLinked : schema.linked = .error fault := by simpa [bind, Except.bind, hLink] using hFault
        exact (Schema.ofContent_of_linked hLinked).placedIn _
      · simp [bind, Except.bind, hLink, pure, Except.pure] at hFault

/-- Error positions are right.  An error of a parse from tokens names a token that stands at
its index among the joined tokens, or an end that is the end of them all or a closing brace;
an error of a parse from text does so among the tokens of the text.  A text that has no
tokens gets a lexical error, which names a line. -/
theorem error_placedIn (settings : Settings) :
    (∀ tokens fault, parseTokens tokens settings = .error fault →
      fault.PlacedIn (Token.coalesce tokens)) ∧
    (∀ source fault, parse source settings = .error fault →
      (∃ line kind, fault = .lexical line kind) ∨
        ∃ tokens, tokenize source = .ok tokens ∧ fault.PlacedIn tokens) := by
  refine ⟨fun tokens fault hFault => placedIn_of_parseTokens hFault, ?_⟩
  intro source fault hFault
  unfold parse at hFault
  cases hTokens : tokenize source with
  | error lexical =>
      rw [hTokens] at hFault
      cases hFault
      exact .inl (Scanner.lexical_of_tokens hTokens)
  | ok tokens =>
      rw [hTokens] at hFault
      have hPlaced := placedIn_of_parseTokens hFault
      rw [coalesce_of_tokenize hTokens] at hPlaced
      exact .inr ⟨tokens, rfl, hPlaced⟩

/-- The equals sign inside a message is the fourth token, although it is the first of its
block. -/
theorem error_placedIn_block :
    (ParseError.unexpectedToken "=" "message field" 3).PlacedIn
        (Token.coalesce ["message", "M", Token.openBrace, "=", Token.closeBrace]) ∧
      ((∃ line kind, ParseError.unexpectedToken "=" "message field" 3 = .lexical line kind) ∨
        ∃ tokens, tokenize "message M \x7b = \x7d" = .ok tokens ∧
          (ParseError.unexpectedToken "=" "message field" 3).PlacedIn tokens) := by
  have hBody := funext fun name => Grammar.members_eq (.new name)
  have hRead : readFile ["message", "M", Token.openBrace, "=", Token.closeBrace] {} =
      .error (.unexpectedToken "=" "message field" 3) := by
    simp only [readFile, Grammar.file, Parser.loop_eq, Grammar.statement, Grammar.declaration,
      Grammar.messageRest]
    rw [hBody]
    rfl
  have hTokens : tokenize "message M \x7b = \x7d" =
      .ok ["message", "M", Token.openBrace, "=", Token.closeBrace] := by cbv
  have hParse : parseTokens ["message", "M", Token.openBrace, "=", Token.closeBrace] {} =
      .error (.unexpectedToken "=" "message field" 3) := by
    unfold parseTokens
    rw [coalesce_of_tokenize hTokens, hRead]
    rfl
  have hSource : parse "message M \x7b = \x7d" {} =
      .error (.unexpectedToken "=" "message field" 3) := by
    unfold parse
    rw [hTokens]
    exact hParse
  exact ⟨(error_placedIn {}).1 _ _ hParse, (error_placedIn {}).2 _ _ hSource⟩

end ProtoIdl
