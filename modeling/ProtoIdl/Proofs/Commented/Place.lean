import ProtoIdl.Proofs.Bracket.Word
import ProtoIdl.Proofs.Commented.Level
import ProtoIdl.Proofs.Commented.Slot
import ProtoIdl.Proofs.Members.Enum
import ProtoIdl.Proofs.Parser.Spans

/-!
# Where the comments of a declaration stand

The comments of a declaration are those in front of its first token.  `parser.Places` says of a
slot of the answer that there is such a place among the tokens ahead: the tokens behind it begin
with the declaration, as its own parser reads it, and with comments put in there the parser answers
the family of the slot.

Lists of members are where such places come from.  A slot of the final state of a loop has its place
among the tokens of the loop, unless it was in the state before (`places_or_earlier`).
-/

namespace ProtoIdl

/-! ## Declarations by themselves -/

namespace Grammar

open ProtoIdl.Parser

/-- Read a field that has no comments before it. -/
def field : Parser Field := do
  let first ← next "field" "message field"
  fieldRest [] first

/-- Read a method that has no comments before it. -/
def method : Parser RpcMethod := do
  let first ← next "method" "service"
  match Keyword.ofToken? first with
  | some .function | some .rpc => rpcRest []
  | _ => rejectLast "service"

end Grammar

namespace Declaration

/-- The parser of such a declaration reads it from the tokens and takes all of them.  Whether a
field is in a `oneof` group depends on what is around it. -/
def ReadsAt (depth limit : Nat) (tokens : List Token) : Declaration → Prop
  | message decl => Grammar.message.ReadsAt depth limit tokens decl []
  | enum decl => Grammar.enum.ReadsAt depth limit tokens decl []
  | value decl => (Grammar.enumValue []).ReadsAt depth limit tokens decl []
  | field decl => Grammar.field.ReadsAt depth limit tokens { decl with oneof := none } []
  | service decl => Grammar.service.ReadsAt depth limit tokens decl []
  | method decl => Grammar.method.ReadsAt depth limit tokens decl []

/-- The tokens begin with the declaration, as it is read by itself. -/
def Opens (limit : Nat) (target : Declaration) (tokens : List Token) : Prop :=
  ∃ text rest depth, tokens = text ++ rest ∧ target.ReadsAt depth limit text

/-- What follows the tokens does not matter. -/
theorem Opens.append {limit : Nat} {target : Declaration} {tokens : List Token}
    (hOpens : target.Opens limit tokens) (more : List Token) :
    target.Opens limit (tokens ++ more) := by
  obtain ⟨text, rest, depth, rfl, hReads⟩ := hOpens
  exact ⟨text, rest ++ more, depth, List.append_assoc .., hReads⟩

end Declaration

/-! ## Ends of statements -/

/-- The last of the tokens is a punctuation mark, if there is one. -/
def Marked (tokens : List Token) : Prop :=
  ∀ token, tokens.getLast? = some token → token.isPunctuation = true

theorem marked_nil : Marked [] :=
  fun _ hLast => nomatch hLast

theorem marked_concat (tokens : List Token) {mark : Token} (hMark : mark.isPunctuation = true) :
    Marked (tokens ++ [mark]) := by
  intro token hLast
  rw [List.getLast?_concat] at hLast
  cases hLast
  exact hMark

theorem Marked.append {first second : List Token} (hFirst : Marked first)
    (hSecond : Marked second) : Marked (first ++ second) := by
  by_cases hNil : second = []
  · rw [hNil, List.append_nil]
    exact hFirst
  · intro token hLast
    rw [List.getLast?_append_of_ne_nil first hNil] at hLast
    exact hSecond token hLast

/-- A member ends with a semicolon or with a closing brace. -/
theorem IsMember.marked {first : Token} {used : List Token} (hMember : IsMember first used) :
    Marked (first :: used) := by
  rcases hMember with ⟨rfl, rfl⟩ | ⟨-, inside, ending, rfl, -, hEnding⟩
  · exact marked_concat [] (by decide)
  · cases hEnding with
    | stop => exact marked_concat (first :: inside) (by decide)
    | @body inner rest _ hRest =>
        rcases hRest with rfl | rfl
        · have hShape : first :: (inside ++ Token.openBrace :: (inner ++ [Token.closeBrace])) =
              first :: (inside ++ Token.openBrace :: inner) ++ [Token.closeBrace] := by simp
          rw [hShape]
          exact marked_concat _ (by decide)
        · have hShape : first :: (inside ++ Token.openBrace :: (inner ++ [Token.closeBrace, ";"])) =
              first :: (inside ++ Token.openBrace :: (inner ++ [Token.closeBrace])) ++ [";"] := by
            simp
          rw [hShape]
          exact marked_concat _ (by decide)

namespace Parser

variable {depth limit : Nat} {ahead before front back middle later : List Token}
  {target : Declaration}

/-! ## Places -/

/-- With any run of comments between `front` and `back` in front of it the parser answers what the
family has for their bodies. -/
def ReadsAround (parser : Parser α) (depth limit : Nat) (front back : List Token)
    (family : List String → α) (later : List Token) : Prop :=
  ∀ comments : List Token, (∀ token ∈ comments, token.isComment = true) →
    parser.ReadsAt depth limit (front ++ (comments ++ back))
      (family (comments.map Token.commentBody)) later

/-- Among the tokens ahead there is the place for the comments of the target: after a mark, or
where the tokens begin, `before` included, and in front of the target.  The answer depends on the
comments there as the family does. -/
def Places (parser : Parser α) (depth limit : Nat) (before : List Token) (target : Declaration)
    (ahead : List Token) (family : List String → α) (later : List Token) : Prop :=
  ∃ front back, ahead = front ++ back ∧ Marked (before ++ front) ∧ target.Opens limit back ∧
    parser.ReadsAround depth limit front back family later

namespace Places

/-- What is made of the answer has the same place. -/
theorem bind {first : Parser α} {second : α → Parser β} {family : List String → α}
    {other : List String → β}
    (hPlaces : first.Places depth limit before target ahead family middle)
    (hSecond : ∀ comments, (second (family comments)).ReadsAt depth limit middle (other comments)
      later) :
    (first >>= second).Places depth limit before target ahead other later := by
  obtain ⟨front, back, rfl, hMarked, hOpens, hReads⟩ := hPlaces
  exact ⟨front, back, rfl, hMarked, hOpens, fun comments hComments =>
    (hReads comments hComments).bind (hSecond _)⟩

/-- A place behind tokens that end with a mark, which are read first. -/
theorem after {first : Parser α} {second : α → Parser β} {value : α} {used : List Token}
    {mark : Token} {family : List String → β} (hMark : mark.isPunctuation = true)
    (hFirst : ∀ rest, first.ReadsAt depth limit (used ++ mark :: rest) value rest)
    (hPlaces : (second value).Places depth limit [] target ahead family later) :
    (first >>= second).Places depth limit before target (used ++ mark :: ahead) family later := by
  obtain ⟨front, back, rfl, hMarked, hOpens, hReads⟩ := hPlaces
  refine ⟨used ++ mark :: front, back, by simp, ?_, hOpens, fun comments hComments => ?_⟩
  · have hShape : before ++ (used ++ mark :: front) = (before ++ used) ++ [mark] ++ front := by
      simp
    rw [hShape]
    exact (marked_concat _ hMark).append hMarked
  · rw [List.append_assoc, List.cons_append]
    exact (hFirst _).bind (hReads comments hComments)

end Places

/-! ## Members of lists -/

/-- A slot of what the parser makes of a state was in the state, or it has a place among the tokens
ahead. -/
def PlacesOrEarlier (Slot : σ → Declaration → (List String → σ) → Prop) (parser : σ → Parser σ)
    (depth limit : Nat) (state : σ) (ahead : List Token) (target : Declaration)
    (family : List String → σ) (later : List Token) : Prop :=
  (∃ before, Slot state target before ∧ ∀ comments,
      (parser (before comments)).ReadsAt depth limit ahead (family comments) later) ∨
    (parser state).Places depth limit [] target ahead family later

/-- Where the comments of a target come into the state that a member of a list leaves: the target
was in the state before, or it is the member itself, or it is inside the member. -/
inductive MemberPlaces (Slot : σ → Declaration → (List String → σ) → Prop)
    (item : σ → List String × Token → Parser σ) (depth limit : Nat) (state : σ) (first : Token)
    (ahead : List Token) (target : Declaration) (family : List String → σ) (later : List Token) :
    Prop
  | earlier {before : List String → σ} (hSlot : Slot state target before)
      (hReads : ∀ comments, (item (before comments) ([], first)).ReadsAt depth limit ahead
        (family comments) later)
  | own (hOpens : target.Opens limit (first :: ahead))
      (hReads : ∀ comments, (item state (comments, first)).ReadsAt depth limit ahead
        (family comments) later)
  | inner (hPlaces : (item state ([], first)).Places depth limit [first] target ahead family later)

/-- Where the comments of a target come into what is read behind a first token.  The parser is given
the comments in front of that token: the target is what it reads, or it is inside. -/
inductive PartPlaces (parser : List String → Parser α) (depth limit : Nat) (first : Token)
    (ahead : List Token) (target : Declaration) (family : List String → α) (later : List Token) :
    Prop
  | own (hOpens : target.Opens limit (first :: ahead))
      (hReads : ∀ comments, (parser comments).ReadsAt depth limit ahead (family comments) later)
  | inner (hPlaces : (parser []).Places depth limit [first] target ahead family later)

namespace PartPlaces

variable {first : Token}

/-- What is made of a part has the same places. -/
theorem bind {parser : List String → Parser α} {second : α → Parser β}
    {whole : List String → Parser β} {family : List String → α} {other : List String → β}
    (hPart : PartPlaces parser depth limit first ahead target family middle)
    (hWhole : ∀ comments, whole comments = parser comments >>= second)
    (hSecond : ∀ comments, (second (family comments)).ReadsAt depth limit middle (other comments)
      later) :
    PartPlaces whole depth limit first ahead target other later := by
  cases hPart with
  | own hOpens hReads =>
      refine .own hOpens fun comments => ?_
      rw [hWhole]
      exact (hReads comments).bind (hSecond comments)
  | inner hPlaces =>
      refine .inner ?_
      rw [hWhole]
      exact hPlaces.bind hSecond

/-- The part that a member adds is where the comments come in. -/
theorem memberPlaces {Slot : σ → Declaration → (List String → σ) → Prop}
    {item : σ → List String × Token → Parser σ} {state : σ} {family : List String → σ}
    (hPart : PartPlaces (fun comments => item state (comments, first)) depth limit first ahead
      target family later) :
    MemberPlaces Slot item depth limit state first ahead target family later := by
  cases hPart with
  | own hOpens hReads => exact .own hOpens hReads
  | inner hPlaces => exact .inner hPlaces

end PartPlaces

/-- What is known of all members of a list: they stand by themselves, they keep the level, and they
end with a mark. -/
structure SteadyItem (item : σ → List String × Token → Parser σ) (levels : σ → Nat) : Prop where
  detached : ∀ state found, Detached (item state found)
  gauged : ∀ state found cursor, Gauged (item state found) (levels state) levels cursor
  marked : ∀ state found cursor,
    Spans (item state found) (fun _ used => Marked (found.2 :: used)) cursor

/-- The head of a member takes the comments in front of it and its first token, whatever they
are. -/
structure TakesComments (head : Head (List String × Token)) : Prop where
  traced : ∀ cursor, head.toParser.Traced cursor
  levelless : Levelless head.toParser
  found : ∀ {cursor between : Cursor} {found : List String × Token},
    (∀ token ∈ cursor.rest, token.isComment = false) →
      head.run cursor = .ok (some found) between →
        found.1 = [] ∧ cursor.rest = found.2 :: between.rest ∧
          ∀ comments later : List Token, (∀ token ∈ comments, token.isComment = true) →
            head.toParser.Reads 0 (comments ++ found.2 :: later)
              (some (comments.map Token.commentBody, found.2)) later

/-- With no comment ahead none is taken. -/
theorem run_takeComments_plain {cursor : Cursor}
    (hPlain : ∀ token ∈ cursor.rest, token.isComment = false) :
    takeComments.run cursor = .ok [] cursor := by
  have hNone : ∀ token ∈ ([] : List Token), token.isComment = true := fun _ hMem => nomatch hMem
  exact run_takeComments hNone (fun token hHead => hPlain token (List.mem_of_mem_head? hHead)) rfl

theorem takesComments_memberHead (context : String) : TakesComments (memberHead context) where
  traced _ := .memberHead context
  levelless := .memberHead context
  found := by
    intro cursor between found hPlain hRun
    obtain ⟨comments, start, hComments, hNext⟩ := run_bind_eq_ok_iff.mp hRun
    rw [run_takeComments_plain hPlain] at hComments
    cases hComments
    obtain ⟨token, rest, hRest, hToken⟩ := exists_of_run_next_bind hNext
    by_cases hClose : token = Token.closeBrace
    · rw [if_pos hClose] at hToken
      cases hToken
    · rw [if_neg hClose] at hToken
      cases hToken
      have hFirst := hPlain token (by simp [hRest])
      exact ⟨rfl, hRest, fun comments later hComments =>
        reads_memberHead_some hComments hFirst hClose⟩

theorem takesComments_statementHead : TakesComments statementHead where
  traced _ := .statementHead
  levelless := .statementHead
  found := by
    intro cursor between found hPlain hRun
    obtain ⟨comments, start, hComments, hNext⟩ := run_bind_eq_ok_iff.mp hRun
    rw [run_takeComments_plain hPlain] at hComments
    cases hComments
    cases hRest : cursor.rest with
    | nil =>
        simp only [run_bind, advance, hRest] at hNext
        cases hNext
    | cons token rest =>
        rw [run_bind, run_advance_cons hRest] at hNext
        cases hNext
        have hFirst := hPlain token (by simp [hRest])
        refine ⟨rfl, rfl, fun comments later hComments => ?_⟩
        exact .bind (reads_commentsBefore hComments hFirst) (.bind (reads_advance token) (.pure _))

section Loops

variable {head : Head (List String × Token)} {item : σ → List String × Token → Parser σ}
  {levels : σ → Nat} {Slot : σ → Declaration → (List String → σ) → Prop}

/-- One round of a loop. -/
theorem readsAt_loop_item {state grown final : σ} {found : List String × Token}
    (hHead : head.toParser.Reads 0 ahead (some found) middle) (hLevel : depth ≤ limit)
    {rest : List Token} (hItem : (item state found).ReadsAt depth limit middle grown rest)
    (hLoop : (loop head item grown).ReadsAt depth limit rest final later) :
    (loop head item state).ReadsAt depth limit ahead final later := by
  rw [loop_eq]
  exact (hHead.here hLevel).bind (hItem.bind hLoop)

/-- Comments in front of a list do not bring a semicolon to its front. -/
theorem head?_around {comments : List Token}
    (hComments : ∀ token ∈ comments, token.isComment = true) :
    (front ++ (comments ++ back)).head? = some ";" → (front ++ back).head? = some ";" := by
  intro hHead
  cases front with
  | cons token front => exact hHead
  | nil =>
      cases comments with
      | nil => exact hHead
      | cons token comments =>
          rw [List.nil_append, List.cons_append, List.head?_cons, Option.some.injEq] at hHead
          have hComment := hComments token (by simp)
          rw [hHead] at hComment
          exact absurd hComment (by decide)

/-- What is read around comments among the later members of a loop is read in the loop. -/
theorem ReadsAround.of_later {state grown : σ} {first : Token} {used : List Token}
    {family : List String → σ} (hLevel : depth ≤ limit)
    (hHead : ∀ later, head.toParser.Reads 0 (first :: later) (some ([], first)) later)
    (hItem : ∀ other : List Token,
      (other.head? = some ";" → (front ++ back).head? = some ";") →
        (item state ([], first)).ReadsAt depth limit (used ++ other) grown other)
    (hReads : (loop head item grown).ReadsAround depth limit front back family later) :
    (loop head item state).ReadsAround depth limit (first :: (used ++ front)) back family
      later := by
  intro comments hComments
  have hAround := hItem (front ++ (comments ++ back)) (head?_around hComments)
  rw [List.cons_append, List.append_assoc]
  exact readsAt_loop_item (hHead _) hLevel hAround (hReads comments hComments)

/-- A place among the later members of a loop is one of the loop. -/
theorem Places.of_later {state grown : σ} {first : Token} {used rest : List Token}
    {family : List String → σ} (hLevel : depth ≤ limit) (hMarked : Marked (first :: used))
    (hHead : ∀ later, head.toParser.Reads 0 (first :: later) (some ([], first)) later)
    (hItem : ∀ other : List Token, (other.head? = some ";" → rest.head? = some ";") →
      (item state ([], first)).ReadsAt depth limit (used ++ other) grown other)
    (hPlaces : (loop head item grown).Places depth limit [] target rest family later) :
    (loop head item state).Places depth limit [] target (first :: (used ++ rest)) family later := by
  obtain ⟨front, back, rfl, hFront, hOpens, hReads⟩ := hPlaces
  refine ⟨first :: (used ++ front), back, by simp, ?_, hOpens, ?_⟩
  · show Marked (first :: used ++ front)
    exact hMarked.append hFront
  · exact .of_later hLevel hHead hItem hReads

/-- Where the comments of a target come into the state that a member leaves, and with it into the
final state of the loop, they come into the loop. -/
theorem MemberPlaces.places_or_earlier {state : σ} {first : Token} {rest : List Token}
    {between family : List String → σ} (hLevel : depth ≤ limit)
    (hHead : ∀ comments later : List Token, (∀ token ∈ comments, token.isComment = true) →
      head.toParser.Reads 0 (comments ++ first :: later)
        (some (comments.map Token.commentBody, first)) later)
    (hMember : MemberPlaces Slot item depth limit state first ahead target between rest)
    (hLoop : ∀ comments, (loop head item (between comments)).ReadsAt depth limit rest
      (family comments) later) :
    PlacesOrEarlier Slot (loop head item) depth limit state (first :: ahead) target family
      later := by
  have hBare : ∀ later, head.toParser.Reads 0 (first :: later) (some ([], first)) later :=
    fun later => hHead [] later fun _ hMem => nomatch hMem
  cases hMember with
  | earlier hSlot hReads =>
      exact .inl ⟨_, hSlot, fun comments =>
        readsAt_loop_item (hBare _) hLevel (hReads comments) (hLoop comments)⟩
  | own hOpens hReads =>
      refine .inr ⟨[], first :: ahead, rfl, marked_nil, hOpens, fun comments hComments => ?_⟩
      exact readsAt_loop_item (hHead comments ahead hComments) hLevel (hReads _) (hLoop _)
  | inner hPlaces =>
      obtain ⟨front, back, rfl, hMarked, hOpens, hReads⟩ := hPlaces
      refine .inr ⟨first :: front, back, rfl, hMarked, hOpens, fun comments hComments => ?_⟩
      exact readsAt_loop_item (hBare _) hLevel (hReads comments hComments) (hLoop _)

/-- A slot of the final state of a loop was in its first state, or it has a place among the tokens
of the loop.  The members are asked about where fewer tokens are ahead. -/
theorem places_or_earlier (hHead : TakesComments head) (hItem : SteadyItem item levels)
    {state final : σ} {cursor last : Cursor} {family : List String → σ}
    (hMember : ∀ {state grown : σ} {first : Token} {start after : Cursor}
      {family : List String → σ}, start.left < cursor.left → start.seen ≠ [] →
        (∀ token ∈ start.rest, token.isComment = false) → start.depth ≤ start.limit →
          (item state ([], first)).run start = .ok grown after → after.depth = start.depth →
            Slot grown target family →
              MemberPlaces Slot item start.depth start.limit state first start.rest target family
                after.rest)
    (hPlain : ∀ token ∈ cursor.rest, token.isComment = false)
    (hLevel : cursor.depth + levels state ≤ cursor.limit)
    (hRun : (loop head item state).run cursor = .ok final last)
    (hSlot : Slot final target family) :
    PlacesOrEarlier Slot (loop head item) cursor.depth cursor.limit state cursor.rest target family
      last.rest := by
  induction hLeft : cursor.left using Nat.strongRecOn generalizing state cursor with
  | ind left ih =>
      rw [loop_eq] at hRun
      obtain ⟨found, start, hFound, hRound⟩ := run_bind_eq_ok_iff.mp hRun
      have hDepth : start.depth = cursor.depth := by
        have hSame := hHead.levelless.depth_eq cursor
        rw [hFound] at hSame
        exact hSame
      cases found with
      | none =>
          cases hRound
          refine .inl ⟨family, hSlot, fun comments => ?_⟩
          rw [loop_eq]
          exact (ReadsAt.of_run (hHead.traced cursor) hFound hDepth).bind (.pure _)
      | some found =>
          obtain ⟨grown, after, hItemRun, hLater⟩ := run_bind_eq_ok_iff.mp hRound
          obtain ⟨bodies, first⟩ := found
          obtain ⟨hBodies, hRest, hComments⟩ := hHead.found hPlain hFound
          obtain rfl : bodies = [] := hBodies
          have hLess := head.progress cursor _ start hFound rfl
          have hSeen := (onward_of_ok hFound).seen_ne_nil_of_lt hLess
          have hLimit := (onward_of_ok hFound).limit_eq
          obtain ⟨hAfter, -, hGrown⟩ :=
            (hItem.gauged state ([], first) start).of_ok (by omega) hItemRun
          obtain ⟨used, hUsed, hMarked⟩ := hItem.marked state ([], first) start grown after hItemRun
          have hStart : ∀ token ∈ start.rest, token.isComment = false := by
            intro token hMem
            exact hPlain token (by rw [hRest]; exact List.mem_cons_of_mem _ hMem)
          have hFewer := (onward_of_ok hItemRun).left_le
          have hLimit' := (onward_of_ok hItemRun).limit_eq
          have hLoop : PlacesOrEarlier Slot (loop head item) after.depth after.limit grown
              after.rest target family last.rest := by
            refine ih after.left (by omega) (fun hLess' => hMember (by omega)) ?_ (by omega) hLater
              rfl
            intro token hMem
            exact hStart token (by rw [hUsed]; exact List.mem_append_right _ hMem)
          rw [hAfter, hDepth, hLimit', hLimit] at hLoop
          rw [hRest]
          rcases hLoop with ⟨between, hBetween, hReads⟩ | hPlaces
          · -- the comments come into the state that this member leaves
            have hPlace := hMember hLess hSeen hStart (by omega) hItemRun hAfter hBetween
            rw [hDepth, hLimit] at hPlace
            exact hPlace.places_or_earlier (by omega) hComments hReads
          · -- this member is read in the same way in front of the comments
            rw [hUsed]
            refine .inr (.of_later (by omega) hMarked ?_ (fun other hOther => ?_) hPlaces)
            · exact fun later => hComments [] later fun _ hMem => nomatch hMem
            · rw [← hDepth, ← hLimit]
              exact (hItem.detached state ([], first)).readsAt hSeen hItemRun hAfter hUsed hOther

end Loops

end Parser
end ProtoIdl
