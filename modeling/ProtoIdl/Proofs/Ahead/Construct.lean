import ProtoIdl.Proofs.Ahead.Grammar
import ProtoIdl.Proofs.Bracket.Grammar
import ProtoIdl.Proofs.Local.Statement
import ProtoIdl.Proofs.RoundTrip.Enum

/-!
# Constructs and what follows them

A construct that has been read is read in the same way whatever follows it.  It is not
influenced by tokens that it leaves, since it looks no further than it takes, and it ends where
it ends however the tokens go on.  Only an enum and a service may go on after their closing
brace, with a semicolon.
-/

namespace ProtoIdl

namespace Parser

variable {parser : Parser α} {start : Cursor} {taken later : List Token} {value : α} {depth : Nat}

/-- From `start`, with `taken` and then `later` ahead, the parser answers the value at the depth
and has taken all of `taken` and nothing more. -/
def Takes (parser : Parser α) (start : Cursor) (taken later : List Token) (value : α)
    (depth : Nat) : Prop :=
  ∃ after, parser.run { start with rest := taken ++ later } = .ok value after ∧
    after.rest = later ∧ after.depth = depth

theorem Takes.ne_nil (hTakes : parser.Takes start taken later value depth)
    (hParser : parser.Consumes fun _ => True) : taken ≠ [] := by
  obtain ⟨after, hRun, hRest, -⟩ := hTakes
  have hLess := hParser _ value after hRun trivial
  rintro rfl
  simp only [Cursor.left, hRest, List.nil_append] at hLess
  omega

/-- The tokens that have been taken are those that the parser spans. -/
theorem Takes.holds {shape : List Token → Prop}
    (hTakes : parser.Takes start taken later value depth)
    (hParser : ∀ cursor, Spans parser (fun _ used => shape used) cursor) : shape taken := by
  obtain ⟨after, hRun, rfl, -⟩ := hTakes
  obtain ⟨used, hUsed, hShape⟩ := hParser _ value after hRun
  rwa [List.append_cancel_right hUsed]

/-- What follows can be taken away, and anything else can be put in its place. -/
theorem Takes.replace (hTakes : parser.Takes start taken later value depth)
    (hSettled : ∀ cursor, Settled parser true cursor)
    (hAhead : ∀ cursor, parser.LooksAhead 0 cursor) (other : List Token) :
    parser.Takes start taken other value depth := by
  obtain ⟨after, hRun, hRest, hDepth⟩ := hTakes
  let short : Cursor := { start with rest := taken }
  have hLong : parser.run (short.extended later) = .ok value after := hRun
  have hLeft : later.length + 0 ≤ after.left := by simp [Cursor.left, hRest]
  obtain ⟨stop, rfl, hShort⟩ := hAhead short later value after hLong hLeft
  have hNil : stop.rest = [] := by simpa using hRest
  exact ⟨stop.extended other, (hSettled short).run_extended hShort other, by simp [hNil], hDepth⟩

/-! ## Semicolons that may follow -/

theorem afterSemicolon_of_cons {cursor : Cursor} {rest : List Token}
    (hRest : cursor.rest = ";" :: rest) : afterSemicolon cursor = cursor.past ";" rest := by
  simp [afterSemicolon, hRest]

theorem afterSemicolon_of_ne {cursor : Cursor} (hOther : cursor.rest.head? ≠ some ";") :
    afterSemicolon cursor = cursor := by
  unfold afterSemicolon
  split
  · rfl
  · next token rest hRest =>
      rw [hRest, List.head?_cons, ne_eq, Option.some.injEq] at hOther
      rw [if_neg hOther]

/-- Run a parser, and then take a semicolon if one comes next. -/
def thenSemicolon (parser : Parser α) : Parser α := do
  let value ← parser
  let _ ← eat ";"
  return value

/-- The semicolon is the last token that has been taken, or none comes next. -/
theorem takes_thenSemicolon_iff :
    (thenSemicolon parser).Takes start taken later value depth ↔
      (∃ used, taken = used ++ [";"] ∧ parser.Takes start used (";" :: later) value depth) ∨
        later.head? ≠ some ";" ∧ parser.Takes start taken later value depth := by
  constructor
  · rintro ⟨after, hRun, hRest, hDepth⟩
    obtain ⟨answer, between, hAnswer, hEnd⟩ := run_bind_eq_ok_iff.mp hRun
    rw [run_semicolon] at hEnd
    cases hEnd
    by_cases hHead : between.rest.head? = some ";"
    · obtain ⟨rest, hBetween⟩ := List.head?_eq_some_iff.mp hHead
      rw [afterSemicolon_of_cons hBetween] at hRest hDepth
      obtain rfl : rest = later := hRest
      obtain ⟨-, -, used, hUsed, -⟩ := onward_of_ok hAnswer
      have hTokens : taken ++ rest = used ++ ";" :: rest := hUsed.trans (by rw [hBetween])
      have hTaken : taken = used ++ [";"] :=
        List.append_cancel_right (hTokens.trans (List.append_cons used ";" rest))
      rw [hTokens] at hAnswer
      exact .inl ⟨used, hTaken, between, hAnswer, hBetween, hDepth⟩
    · rw [afterSemicolon_of_ne hHead] at hRest hDepth
      rw [hRest] at hHead
      exact .inr ⟨hHead, between, hAnswer, hRest, hDepth⟩
  · rintro (⟨used, rfl, after, hRun, hRest, hDepth⟩ | ⟨hHead, after, hRun, hRest, hDepth⟩)
    · refine ⟨after.past ";" later, ?_, rfl, hDepth⟩
      rw [List.append_assoc, List.singleton_append]
      refine run_bind_eq_ok_iff.mpr ⟨value, after, hRun, ?_⟩
      rw [run_semicolon, afterSemicolon_of_cons hRest]
    · refine ⟨after, run_bind_eq_ok_iff.mpr ⟨value, after, hRun, ?_⟩, hRest, hDepth⟩
      rw [run_semicolon, afterSemicolon_of_ne (hRest ▸ hHead)]

/-- What follows a closing brace can be replaced, except that a semicolon that follows is
taken. -/
theorem Takes.replace_thenSemicolon
    (hTakes : (thenSemicolon parser).Takes start taken later value depth)
    (hSettled : ∀ cursor, Settled parser true cursor)
    (hAhead : ∀ cursor, parser.LooksAhead 0 cursor)
    (hSpans : ∀ cursor, Spans parser (fun _ used => used.getLast? = some Token.closeBrace) cursor)
    (other : List Token) :
    (taken.getLast? = some Token.closeBrace → other.head? = some ";" →
      (thenSemicolon parser).Takes start (taken ++ [";"]) other.tail value depth) ∧
      (¬(taken.getLast? = some Token.closeBrace ∧ other.head? = some ";") →
        (thenSemicolon parser).Takes start taken other value depth) := by
  rcases takes_thenSemicolon_iff.mp hTakes with ⟨used, rfl, hUsed⟩ | ⟨-, hUsed⟩
  · -- the semicolon has been taken already
    refine ⟨fun hLast => ?_, fun _ => ?_⟩
    · rw [List.getLast?_concat, Option.some.injEq] at hLast
      exact absurd hLast (by decide)
    · exact takes_thenSemicolon_iff.mpr
        (.inl ⟨used, rfl, hUsed.replace hSettled hAhead (";" :: other)⟩)
  · have hOther := hUsed.replace hSettled hAhead other
    refine ⟨fun _ hHead => ?_, fun hNone => ?_⟩
    · obtain ⟨rest, rfl⟩ := List.head?_eq_some_iff.mp hHead
      exact takes_thenSemicolon_iff.mpr (.inl ⟨taken, rfl, hOther⟩)
    · have hHead : other.head? ≠ some ";" := fun hHead => hNone ⟨hUsed.holds hSpans, hHead⟩
      exact takes_thenSemicolon_iff.mpr (.inr ⟨hHead, hOther⟩)

end Parser

namespace Grammar

open ProtoIdl.Parser

/-! ## Enums and services -/

section NamedBlock

variable {item : σ → List String × Token → Parser σ} {cursor : Cursor}

/-- Read a keyword, a name and a braced list of members, up to its closing brace. -/
def namedBlock (keyword : Keyword) (noun context : String)
    (item : σ → List String × Token → Parser σ) (new : String → σ) : Parser σ := do
  expect keyword.text context
  let name ← word noun context
  expect Token.openBrace context
  loop (memberHead context) item (new name)

theorem enum_eq :
    enum = thenSemicolon (namedBlock .enum "enum name" "enum" enumMember .new) := by
  simp only [enum, enumRest, thenSemicolon, namedBlock, bind_assoc]

theorem service_eq :
    service = thenSemicolon (namedBlock .service "service name" "service" serviceMember .new) := by
  simp only [service, serviceRest, thenSemicolon, namedBlock, bind_assoc]

theorem settled_namedBlock
    (hItem : ∀ state head start, start.seen ≠ [] → Settled (item state head) false start)
    (keyword : Keyword) (noun context : String) (new : String → σ) :
    Settled (namedBlock keyword noun context item new) true cursor := by
  refine .bind (.expect _ _) fun _ afterKeyword _ => ?_
  refine .bind (.word _ _) fun name afterName _ => ?_
  refine .bind (.expect _ _) fun _ afterBrace _ => ?_
  exact .memberLoop hItem _ _

theorem looksAhead_namedBlock
    (hItem : ∀ state head start, (item state head).LooksAhead 0 start)
    (keyword : Keyword) (noun context : String) (new : String → σ) :
    (namedBlock keyword noun context item new).LooksAhead 0 cursor := by
  refine .bind (.expect _ _) fun _ afterKeyword _ => ?_
  refine .bind (.word _ _) fun name afterName _ => ?_
  refine .bind (.expect _ _) fun _ afterBrace _ => ?_
  exact .memberLoop hItem _ _

theorem spans_namedBlock
    (hItem : ∀ state head start, Spans (item state head) (fun _ used => IsMember head.2 used) start)
    (keyword : Keyword) (noun context : String) (new : String → σ) :
    Spans (namedBlock keyword noun context item new)
      (fun _ used => used.getLast? = some Token.closeBrace) cursor := by
  refine .expect_bind fun _ => ?_
  refine .word_bind fun name afterName _ => ?_
  refine .expect_bind fun _ => ?_
  refine .mono (spans_memberLoop context hItem (new name)) ?_
  rintro _ used ⟨inner, rfl, -⟩
  rw [← List.cons_append, ← List.cons_append, ← List.cons_append, List.getLast?_concat]

end NamedBlock

/-! ## All constructs -/

/-- The constructs that stand by themselves and are read by a parser of their own. -/
inductive Construct where
  | message
  | enum
  | service
  | option
  | optionMap
  | fieldOptions
  deriving DecidableEq, Repr

namespace Construct

/-- What a construct is read to. -/
def Answer : Construct → Type
  | message => Message
  | enum => EnumDecl
  | service => Service
  | option => String × OptionValue
  | optionMap => OptionMap
  | fieldOptions => OptionMap

/-- The parser of a construct. -/
def parser : (construct : Construct) → Parser construct.Answer
  | message => Grammar.message
  | enum => Grammar.enum
  | service => Grammar.service
  | option => Grammar.option
  | optionMap => Grammar.optionMap
  | fieldOptions => Grammar.fieldOptions

/-- The tokens go on with a semicolon that the construct takes after its closing brace. -/
def TakesSemicolon (construct : Construct) (taken other : List Token) : Prop :=
  (construct = enum ∨ construct = service) ∧ taken.getLast? = some Token.closeBrace ∧
    other.head? = some ";"

theorem parser_consumes (construct : Construct) : construct.parser.Consumes fun _ => True := by
  cases construct with
  | optionMap =>
      refine .bind_right fun _ => .bind_left ?_
      rw [entries_eq]
      exact .bind_left (mapEntry_consumes ∅)
  | _ => exact .bind_left (.expect _ _)

variable {construct : Construct} {start : Cursor} {taken later : List Token}
  {value : construct.Answer} {depth : Nat}

/-- Enums and services apart, a construct ends with a token that it requires. -/
theorem settled_of_firm (hConstruct : construct ≠ enum ∧ construct ≠ service) (cursor : Cursor) :
    Settled construct.parser true cursor := by
  cases construct with
  | message => exact .bind (.expect _ _) fun _ afterKeyword _ => settled_messageRest
  | enum => exact absurd rfl hConstruct.1
  | service => exact absurd rfl hConstruct.2
  | option => exact .bind (.expect _ _) fun _ afterKeyword _ => settled_optionRest
  | optionMap => exact settled_optionMap
  | fieldOptions =>
      refine .bind (.expect _ _) fun _ afterOpen _ => ?_
      exact .commaList (fun options _ => settled_fieldOption options) _ _ _

theorem looksAhead_of_firm (hConstruct : construct ≠ enum ∧ construct ≠ service)
    (cursor : Cursor) : construct.parser.LooksAhead 0 cursor := by
  cases construct with
  | message => exact .bind (.expect _ _) fun _ afterKeyword _ => looksAhead_messageRest
  | enum => exact absurd rfl hConstruct.1
  | service => exact absurd rfl hConstruct.2
  | option => exact .bind (.expect _ _) fun _ afterKeyword _ => looksAhead_optionRest
  | optionMap => exact looksAhead_optionMap
  | fieldOptions => exact looksAhead_fieldOptions

/-- Enums and services are a braced list of members, and a semicolon that may follow it. -/
theorem replace_semicolon (hConstruct : construct = enum ∨ construct = service)
    (hTakes : construct.parser.Takes start taken later value depth) (other : List Token) :
    (taken.getLast? = some Token.closeBrace → other.head? = some ";" →
      construct.parser.Takes start (taken ++ [";"]) other.tail value depth) ∧
      (¬(taken.getLast? = some Token.closeBrace ∧ other.head? = some ";") →
        construct.parser.Takes start taken other value depth) := by
  rcases hConstruct with rfl | rfl
  · rw [parser, enum_eq] at hTakes ⊢
    exact hTakes.replace_thenSemicolon
      (fun _ => settled_namedBlock (fun decl head _ => settled_enumMember decl head) _ _ _ _)
      (fun _ => looksAhead_namedBlock (fun decl head _ => looksAhead_enumMember decl head) _ _ _ _)
      (fun _ => spans_namedBlock (fun decl head _ => spans_enumMember decl head) _ _ _ _) other
  · rw [parser, service_eq] at hTakes ⊢
    exact hTakes.replace_thenSemicolon
      (fun _ => settled_namedBlock (fun service head _ => settled_serviceMember service head)
        _ _ _ _)
      (fun _ => looksAhead_namedBlock (fun service head _ => looksAhead_serviceMember service head)
        _ _ _ _)
      (fun _ => spans_namedBlock (fun service head _ => spans_serviceMember service head) _ _ _ _)
      other

/-- A construct takes at least one token, and is read in the same way, and back to the same
depth, whatever follows it.  The one exception are enums and services that have ended with their
closing brace: they take a semicolon that comes next. -/
theorem takes_whatever_follows
    (hTakes : construct.parser.Takes start taken later value depth) :
    taken ≠ [] ∧ ∀ other,
      (construct.TakesSemicolon taken other →
        construct.parser.Takes start (taken ++ [";"]) other.tail value depth) ∧
        (¬construct.TakesSemicolon taken other →
          construct.parser.Takes start taken other value depth) := by
  refine ⟨hTakes.ne_nil construct.parser_consumes, fun other => ?_⟩
  by_cases hConstruct : construct = enum ∨ construct = service
  · obtain ⟨hSemicolon, hStays⟩ := replace_semicolon hConstruct hTakes other
    exact ⟨fun ⟨_, hLast, hHead⟩ => hSemicolon hLast hHead,
      fun hNone => hStays fun hBoth => hNone ⟨hConstruct, hBoth⟩⟩
  · have hFirm := not_or.mp hConstruct
    refine ⟨fun ⟨hOther, _⟩ => absurd hOther hConstruct, fun _ => ?_⟩
    exact hTakes.replace (settled_of_firm hFirm) (looksAhead_of_firm hFirm) other

/-- An enum with a value that has been read to its closing brace takes a semicolon that follows,
and no other token. -/
theorem enum_takes_semicolon :
    enum.parser.Takes (.ofTokens [] 64)
        ["enum", "E", Token.openBrace, "A", "=", "0", ";", Token.closeBrace, ";"] ["message"]
        (⟨"E", [⟨"A", 0, ∅, []⟩], [], ∅, []⟩ : EnumDecl) 0 ∧
      enum.parser.Takes (.ofTokens [] 64)
        ["enum", "E", Token.openBrace, "A", "=", "0", ";", Token.closeBrace] ["message"]
        (⟨"E", [⟨"A", 0, ∅, []⟩], [], ∅, []⟩ : EnumDecl) 0 := by
  let decl : EnumDecl := ⟨"E", [⟨"A", 0, ∅, []⟩], [], ∅, []⟩
  have hReads : Grammar.enum.Reads 0
      ["enum", "E", Token.openBrace, "A", "=", "0", ";", Token.closeBrace] decl [] :=
    .bind (reads_expect _ _)
      (@reads_enumRest 0 [] decl (by decide) (by decide) noSemicolonFirst_nil)
  have hTakes : enum.parser.Takes (.ofTokens [] 64)
      ["enum", "E", Token.openBrace, "A", "=", "0", ";", Token.closeBrace] [] decl 0 :=
    hReads _ rfl (by decide)
  obtain ⟨-, hOther⟩ := takes_whatever_follows hTakes
  have hSemicolon : enum.TakesSemicolon
      ["enum", "E", Token.openBrace, "A", "=", "0", ";", Token.closeBrace] [";", "message"] :=
    ⟨.inl rfl, rfl, rfl⟩
  have hStays : ¬enum.TakesSemicolon
      ["enum", "E", Token.openBrace, "A", "=", "0", ";", Token.closeBrace] ["message"] := by
    rintro ⟨-, -, hHead⟩
    exact absurd hHead (by decide)
  exact ⟨(hOther [";", "message"]).1 hSemicolon, (hOther ["message"]).2 hStays⟩

end Construct

end Grammar
end ProtoIdl
