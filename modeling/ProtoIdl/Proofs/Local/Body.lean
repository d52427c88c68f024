import ProtoIdl.Proofs.Local.Join
import ProtoIdl.Proofs.Local.Member
import ProtoIdl.Proofs.Parser.Block
import ProtoIdl.Proofs.Trace.Behind

/-!
# Bodies of messages one after the other

What is read from the members of two bodies, one after the other, is the message of the first
body followed by that of the second, unless both set an option.  Members of different kinds may
therefore change places, and nothing else that is read there changes, an error further on and
its place included.
-/

namespace ProtoIdl

namespace Cursor

theorem extended_nil (cursor : Cursor) : cursor.extended [] = cursor := by
  rw [extended, List.append_nil]

/-- A move to a further place is one in a longer list too. -/
theorem Onward.extended {earlier later : Cursor} (hOnward : earlier.Onward later)
    (more : List Token) : (earlier.extended more).Onward (later.extended more) := by
  obtain ⟨hBase, hLimit, used, hRest, hSeen⟩ := hOnward
  refine ⟨hBase, hLimit, used, ?_, hSeen⟩
  rw [rest_extended, rest_extended, hRest, List.append_assoc]

end Cursor

/-- Only an option that is set twice keeps messages from being joined. -/
theorem Message.eq_duplicate_of_join {first second : Message} {fault : ParseError}
    (hJoin : first.join second = .error fault) : ∃ key, fault = .duplicate .option key := by
  rw [join] at hJoin
  split at hJoin
  · next key _ =>
      cases hJoin
      exact ⟨key, rfl⟩
  · cases hJoin

namespace Grammar

open ProtoIdl.Parser

variable {limit : Nat} {name : Token} {body later : List Token} {decl start joined : Message}
  {cursor : Cursor}

/-! ## Messages -/

/-- The tokens of a message before its members. -/
def messageHeader (name : Token) : List Token :=
  [Keyword.message.text, name, Token.openBrace]

/-- A message with this name and these tokens for its body is read to its closing brace. -/
def ReadsBody (limit : Nat) (name : Token) (body : List Token) (decl : Message) : Prop :=
  ∃ last, message.run (.ofTokens (messageHeader name ++ (body ++ [Token.closeBrace])) limit) =
    .ok decl last ∧ last.rest = []

/-- The tokens do not end in a comment, which would belong to what follows. -/
def EndsInMember (tokens : List Token) : Prop :=
  ∀ token, tokens.getLast? = some token → token.isComment = false

/-- The cursor where the body of a message starts. -/
def afterHeader (name : Token) (tokens : List Token) (limit : Nat) : Cursor :=
  ⟨0, (messageHeader name).reverse, tokens, 0, limit⟩

theorem message_eq :
    message = (expect Keyword.message.text "message" >>= fun _ =>
      word "message name" "message" >>= fun name => expect Token.openBrace "message" >>= fun _ =>
        inside "message" (members (.new name))) := by
  simp [message, messageRest, block, BlockKind.nameNoun, BlockKind.noun]

/-- A message is read by reading its body. -/
theorem run_message (hName : name.isWordLike = true) (tokens : List Token) (limit : Nat) :
    message.run (.ofTokens (messageHeader name ++ tokens) limit) =
      (inside "message" (members (.new name))).run (afterHeader name tokens limit) := by
  rw [message_eq, run_expect_bind "message" rfl, word, bind_assoc, run_next_bind _ _ rfl,
    checkWord, if_pos hName, pure_bind, run_expect_bind "message" rfl]
  rfl

/-- A message that is read has a word for its name, and its members are read to the end of its
body. -/
theorem exists_of_readsBody (hBody : ReadsBody limit name body decl) :
    name.isWordLike = true ∧ 0 < limit ∧ Cursor.Whole body ∧
      ∃ last, (members (.new name)).run
        (blockCursor (afterHeader name (body ++ [Token.closeBrace]) limit) body) =
          .ok decl last := by
  obtain ⟨stop, hRun, hDone⟩ := hBody
  have hName : name.isWordLike = true := by
    rw [message_eq, run_expect_bind "message" rfl, word, bind_assoc, run_next_bind _ _ rfl,
      checkWord] at hRun
    by_contra hOther
    rw [if_neg hOther] at hRun
    cases hRun
  rw [run_message hName] at hRun
  obtain ⟨block, later, last, hSplit, hOpen, hMembers, rfl⟩ := exists_of_run_inside hRun
  -- nothing is left after the closing brace, so the block is the whole body
  obtain rfl : later = [] := hDone
  have hParts := Cursor.append_of_splitBlock? hSplit
  obtain ⟨rfl, -⟩ := List.append_inj' hParts rfl
  exact ⟨hName, hOpen, Cursor.whole_of_splitBlock? hSplit, last, hMembers⟩

/-! ## Members at the place of the body -/

/-- What a body adds it adds wherever it stands in a message. -/
theorem exists_adds (hBody : ReadsBody limit name body decl) (hRest : cursor.rest = body)
    (hDepth : cursor.depth = 1) (hLimit : cursor.limit = limit) :
    ∃ last, Adds cursor decl last ∧ cursor.Onward last ∧ last.depth = 1 ∧ last.rest = [] := by
  obtain ⟨-, hOpen, -, stop, hRun⟩ := exists_of_readsBody hBody
  have hAlike : (blockCursor (afterHeader name (body ++ [Token.closeBrace]) limit) body).Alike
      cursor := ⟨hRest, hDepth, hLimit⟩
  obtain ⟨last, hHere, -⟩ := (traced_members (.new name) _).answersAlike hAlike decl stop hRun
  have hLevels : cursor.depth + (Message.new name).innerNesting ≤ cursor.limit := by
    have hNone : (Message.new name).innerNesting = 0 := rfl
    omega
  obtain ⟨hLevel, -, -⟩ := (gauged_members (.new name) cursor).of_ok hLevels hHere
  exact ⟨last, adds_of_run_members hHere, onward_of_ok hHere, hLevel.trans hDepth,
    rest_of_run_members hHere⟩

/-- The members ahead of the cursor, up to the tokens `later`, make `start` into the result:
reading goes on from there with what they come to, or it fails. -/
def ComesOn (start : Message) (cursor : Cursor) (result : Except ParseError Message)
    (later : List Token) : Prop :=
  match result with
  | .ok joined => ∃ next, cursor.Onward next ∧ next.depth = cursor.depth ∧ next.rest = later ∧
      (members start).run cursor = (members joined).run next
  | .error fault => ((members start).run cursor).Fails fault

/-- What a body adds is joined where it stands, and reading goes on after it. -/
theorem comesOn_join (hBody : ReadsBody limit name body decl)
    (hEnd : later ≠ [] → EndsInMember body) (hRest : cursor.rest = body ++ later)
    (hDepth : cursor.depth = 1) (hLimit : cursor.limit = limit) (start : Message) :
    ComesOn start cursor (start.join decl) later := by
  obtain ⟨alone, rfl, rfl⟩ : ∃ alone : Cursor, cursor = alone.extended later ∧ alone.rest = body := by
    refine ⟨{ cursor with rest := body }, ?_, rfl⟩
    cases cursor
    cases hRest
    rfl
  obtain ⟨last, hAdds, hOnward, hLevel, hDone⟩ := exists_adds hBody rfl hDepth hLimit
  have hStart := hAdds start
  cases hJoin : start.join decl with
  | error fault =>
      rw [hJoin] at hStart
      obtain ⟨stop, hRun⟩ := hStart
      rcases fails_members_extended hRun with ⟨expected, context, hEnds⟩ | hSame
      · obtain ⟨key, rfl⟩ := Message.eq_duplicate_of_join hJoin
        cases hEnds
      · exact hSame later
  | ok joined =>
      rw [hJoin] at hStart
      refine ⟨last.extended later, hOnward.extended later, ?_, by simp [hDone], ?_⟩
      · exact hLevel.trans hDepth.symm
      · by_cases hLater : later = []
        · subst hLater
          rw [Cursor.extended_nil, Cursor.extended_nil, hStart, members_eq_loop,
            run_statementLoop_nil hDone]
        · exact run_members_extended hStart (hEnd hLater) later

/-- What comes after a part is read where that part has come to. -/
theorem ComesOn.bind {middle : List Token} {first : Except ParseError Message}
    {second : Message → Except ParseError Message} (hFirst : ComesOn start cursor first middle)
    (hSecond : ∀ joined next, cursor.Onward next → next.depth = cursor.depth →
      next.rest = middle → ComesOn joined next (second joined) later) :
    ComesOn start cursor (first.bind second) later := by
  cases first with
  | error fault => exact hFirst
  | ok joined =>
      obtain ⟨next, hOnward, hDepth, hRest, hRun⟩ := hFirst
      have hLater := hSecond joined next hOnward hDepth hRest
      dsimp only [Except.bind]
      cases hBoth : second joined with
      | error fault =>
          rw [hBoth] at hLater
          unfold ComesOn at hLater ⊢
          rwa [hRun]
      | ok both =>
          rw [hBoth] at hLater
          obtain ⟨last, hOnward', hDepth', hRest', hRun'⟩ := hLater
          exact ⟨last, hOnward.trans hOnward', hDepth'.trans hDepth, hRest', hRun.trans hRun'⟩

/-- Two bodies that stand one after the other are joined one after the other. -/
theorem comesOn_join_join {first second : List Token} {one two : Message}
    (hFirst : ReadsBody limit name first one) (hFirstEnd : EndsInMember first)
    (hSecond : ReadsBody limit name second two) (hSecondEnd : later ≠ [] → EndsInMember second)
    (hRest : cursor.rest = first ++ (second ++ later)) (hDepth : cursor.depth = 1)
    (hLimit : cursor.limit = limit) (start : Message) :
    ComesOn start cursor ((start.join one).bind (·.join two)) later :=
  (comesOn_join hFirst (fun _ => hFirstEnd) hRest hDepth hLimit start).bind
    fun joined _ hOnward hLevel hMiddle => comesOn_join hSecond hSecondEnd hMiddle
      (hLevel.trans hDepth) (hOnward.limit_eq.trans hLimit) joined

/-! ## Whole bodies -/

/-- A message is read by finding its body and reading the members there. -/
theorem run_message_block {tokens block : List Token} (hName : name.isWordLike = true)
    (hOpen : 0 < limit) (hSplit : Cursor.splitBlock? 0 tokens = some (block, later)) :
    message.run (.ofTokens (messageHeader name ++ tokens) limit) =
      ((members (.new name)).run (blockCursor (afterHeader name tokens limit) block)).finish
        (fun _ => blockEnd (afterHeader name tokens limit) block later)
        fun _ => blockEnd (afterHeader name tokens limit) block later := by
  have hLevel : (afterHeader name tokens limit).depth < (afterHeader name tokens limit).limit :=
    hOpen
  rw [run_message hName, run_inside "message" _ hSplit hLevel]
  cases (members (.new name)).run (blockCursor (afterHeader name tokens limit) block) <;> rfl

/-- A body that starts a message is what the message comes to. -/
theorem new_join_of_readsBody (hBody : ReadsBody limit name body decl) :
    (Message.new name).join decl = .ok decl := by
  obtain ⟨-, -, -, last, hRun⟩ := exists_of_readsBody hBody
  have hNew := adds_of_run_members hRun (.new name)
  rw [Message.new_join] at hNew ⊢
  exact congrArg Except.ok (Reply.ok.inj (hRun.symm.trans hNew)).1.symm

/-- A body of one member is what the member comes to. -/
theorem readsBody_of_statement {head : List String × Token} {between last : Cursor}
    (hName : name.isWordLike = true) (hOpen : 0 < limit)
    (hSplit : Cursor.splitBlock? 0 (body ++ [Token.closeBrace]) = some (body, []))
    (hHead : statementHead.run
        (blockCursor (afterHeader name (body ++ [Token.closeBrace]) limit) body) =
      .ok (some head) between)
    (hStatement : (messageStatement (.new name) head).run between = .ok decl last)
    (hEnd : last.rest = []) : ReadsBody limit name body decl := by
  have hRun := run_message_block hName hOpen hSplit
  rw [members_eq_loop, run_loop_of_some hHead, run_bind, hStatement] at hRun
  dsimp only at hRun
  rw [run_statementLoop_nil hEnd] at hRun
  exact ⟨_, hRun, rfl⟩

/-- The message of two bodies is that of the first, joined with that of the second. -/
theorem readsBody_append {first second : List Token} {one two : Message}
    (hFirst : ReadsBody limit name first one) (hEnd : EndsInMember first)
    (hSecond : ReadsBody limit name second two) :
    match one.join two with
    | .ok both => ReadsBody limit name (first ++ second) both
    | .error fault => (message.run (.ofTokens
        (messageHeader name ++ (first ++ second ++ [Token.closeBrace])) limit)).Fails fault := by
  obtain ⟨hName, hOpen, hWhole, -⟩ := exists_of_readsBody hFirst
  obtain ⟨-, -, hWhole', -⟩ := exists_of_readsBody hSecond
  obtain ⟨start, hStart⟩ : ∃ start, start = blockCursor
    (afterHeader name (first ++ second ++ [Token.closeBrace]) limit) (first ++ second) := ⟨_, rfl⟩
  have hDepth : start.depth = 1 := by rw [hStart]; rfl
  have hLimit : start.limit = limit := by rw [hStart]; rfl
  have hRest : start.rest = first ++ (second ++ []) := by
    rw [hStart, List.append_nil]
    rfl
  have hBoth : ComesOn (.new name) start (((Message.new name).join one).bind (·.join two)) [] :=
    comesOn_join_join hFirst hEnd hSecond (absurd rfl) hRest hDepth hLimit _
  rw [new_join_of_readsBody hFirst] at hBoth
  dsimp only [Except.bind] at hBoth
  have hSplit : Cursor.splitBlock? 0 (first ++ second ++ [Token.closeBrace]) =
      some (first ++ second, []) := Cursor.splitBlock?_of_whole (hWhole.append hWhole')
  have hRun := run_message_block hName hOpen hSplit
  rw [← hStart] at hRun
  cases hJoin : one.join two with
  | error fault =>
      rw [hJoin] at hBoth
      obtain ⟨stop, hFails⟩ := hBoth
      rw [hFails] at hRun
      exact ⟨_, hRun⟩
  | ok both =>
      rw [hJoin] at hBoth
      obtain ⟨next, -, -, hDone, hMembers⟩ := hBoth
      rw [hMembers, members_eq_loop, run_statementLoop_nil hDone] at hRun
      exact ⟨_, hRun, rfl⟩

/-- The members of a message that start with a body, and then two more. -/
theorem comesOn_three {first second third : List Token} {one two three : Message}
    (hFirst : ReadsBody limit name first one) (hFirstEnd : EndsInMember first)
    (hSecond : ReadsBody limit name second two) (hSecondEnd : EndsInMember second)
    (hThird : ReadsBody limit name third three) (hThirdEnd : EndsInMember third)
    (hRest : cursor.rest = first ++ (second ++ (third ++ later))) (hDepth : cursor.depth = 1)
    (hLimit : cursor.limit = limit) :
    ComesOn (.new name) cursor ((one.join two).bind (·.join three)) later := by
  have hStart := comesOn_join hFirst (fun _ => hFirstEnd) hRest hDepth hLimit (.new name)
  rw [new_join_of_readsBody hFirst] at hStart
  have hLater : ∀ joined next, cursor.Onward next → next.depth = cursor.depth →
      next.rest = second ++ (third ++ later) →
        ComesOn joined next ((joined.join two).bind (·.join three)) later :=
    fun joined _ hOnward hLevel hMiddle => comesOn_join_join hSecond hSecondEnd hThird
      (fun _ => hThirdEnd) hMiddle (hLevel.trans hDepth) (hOnward.limit_eq.trans hLimit) joined
  exact hStart.bind hLater

/-- Two runs that come to the same message agree in all that they read after it. -/
theorem agrees_of_comesOn {first second : Cursor} {result : Except ParseError Message}
    (hFirst : ComesOn start first result later) (hSecond : ComesOn start second result later)
    (hDepth : first.depth = second.depth) (hLimit : first.limit = second.limit)
    (hStop : first.stop = second.stop) :
    ((members start).run first).Agrees ((members start).run second) := by
  cases result with
  | error fault =>
      obtain ⟨after, hRun⟩ := hFirst
      obtain ⟨last, hRun'⟩ := hSecond
      rw [hRun, hRun']
      exact rfl
  | ok joined =>
      obtain ⟨next, hOnward, hLevel, hRest, hRun⟩ := hFirst
      obtain ⟨other, hOnward', hLevel', hRest', hRun'⟩ := hSecond
      rw [hRun, hRun']
      refine agrees_of_index_eq (traced_members joined) ⟨?_, ?_, ?_⟩ ?_
      · rw [hRest, hRest']
      · rw [hLevel, hLevel', hDepth]
      · rw [hOnward.limit_eq, hOnward'.limit_eq, hLimit]
      · -- the same tokens are left before the same end
        have hNext := hOnward.stop_eq
        have hOther := hOnward'.stop_eq
        simp only [Cursor.stop, Cursor.left, hRest, hRest'] at hNext hOther hStop
        omega

/-- Reading a message does not tell members of different kinds apart by their order. -/
theorem agrees_of_feedsApart {first left right : List Token} {one two three : Message}
    (hFirst : ReadsBody limit name first one) (hEnd : EndsInMember first)
    (hLeft : ReadsBody limit name left two) (hLeftEnd : EndsInMember left)
    (hRight : ReadsBody limit name right three) (hRightEnd : EndsInMember right)
    (hApart : two.FeedsApart three) (rest : List Token) :
    (message.run (.ofTokens
        (messageHeader name ++ (first ++ (left ++ (right ++ rest)))) limit)).Agrees
      (message.run (.ofTokens
        (messageHeader name ++ (first ++ (right ++ (left ++ rest)))) limit)) := by
  obtain ⟨hName, hOpen, hWhole, -⟩ := exists_of_readsBody hFirst
  obtain ⟨-, -, hWholeLeft, -⟩ := exists_of_readsBody hLeft
  obtain ⟨-, -, hWholeRight, -⟩ := exists_of_readsBody hRight
  have hSplit : ∀ {inner other : List Token}, Cursor.Whole inner → Cursor.Whole other →
      Cursor.splitBlock? 0 (first ++ (inner ++ (other ++ rest))) =
        (Cursor.splitBlock? 0 rest).map
          fun parts => (first ++ (inner ++ (other ++ parts.1)), parts.2) := by
    intro inner other hInner hOther
    rw [hWhole, hInner, hOther, Option.map_map, Option.map_map]
    rfl
  have hStop : (first ++ (left ++ (right ++ rest))).length =
      (first ++ (right ++ (left ++ rest))).length := by
    simp only [List.length_append]
    omega
  cases hClose : Cursor.splitBlock? 0 rest with
  | none =>
      -- the message is not closed, which is reported at the end of the same number of tokens
      have hNone := hSplit hWholeLeft hWholeRight
      have hNone' := hSplit hWholeRight hWholeLeft
      rw [hClose, Option.map_none] at hNone hNone'
      rw [run_message hName, run_message hName, run_inside_eq, run_inside_eq, afterHeader,
        afterHeader]
      dsimp only
      rw [hNone, hNone']
      show ParseError.unterminated _ _ _ = ParseError.unterminated _ _ _
      simp only [Cursor.stop, Cursor.left, hStop]
      rfl
  | some parts =>
      obtain ⟨block, later⟩ := parts
      have hSome := hSplit hWholeLeft hWholeRight
      have hSome' := hSplit hWholeRight hWholeLeft
      rw [hClose, Option.map_some] at hSome hSome'
      rw [run_message_block hName hOpen hSome, run_message_block hName hOpen hSome']
      have hOne : ComesOn (.new name)
          (blockCursor (afterHeader name (first ++ (left ++ (right ++ rest))) limit)
            (first ++ (left ++ (right ++ block)))) ((one.join two).bind (·.join three)) block :=
        comesOn_three hFirst hEnd hLeft hLeftEnd hRight hRightEnd rfl rfl rfl
      have hOther : ComesOn (.new name)
          (blockCursor (afterHeader name (first ++ (right ++ (left ++ rest))) limit)
            (first ++ (right ++ (left ++ block)))) ((one.join three).bind (·.join two)) block :=
        comesOn_three hFirst hEnd hRight hRightEnd hLeft hLeftEnd rfl rfl rfl
      rw [← hApart.join_comm] at hOther
      refine (agrees_of_comesOn hOne hOther rfl rfl ?_).finish ⟨rfl, rfl, rfl⟩
      simp only [blockCursor, Cursor.stop, Cursor.left, Cursor.index, afterHeader,
        List.length_append]
      omega

/-- The members of a body are joined to those of the body before it: the message is the first
followed by the second, or the first option of the second that the first has is refused.  Two
adjacent parts of a body that have members of different kinds may change places, whatever stands
before and after them. -/
theorem message_bodies {first : List Token} {one : Message}
    (hFirst : ReadsBody limit name first one) (hEnd : EndsInMember first) :
    (∀ second two, ReadsBody limit name second two →
        match two.options.keys.find? one.options.contains with
        | some key => (message.run (.ofTokens
            (messageHeader name ++ (first ++ second ++ [Token.closeBrace])) limit)).Fails
              (.duplicate .option key)
        | none => ReadsBody limit name (first ++ second) (one.followedBy two)) ∧
      ∀ left right two three, ReadsBody limit name left two → EndsInMember left →
        ReadsBody limit name right three → EndsInMember right → two.FeedsApart three →
          ∀ rest, (message.run (.ofTokens
              (messageHeader name ++ (first ++ (left ++ (right ++ rest)))) limit)).Agrees
            (message.run (.ofTokens
              (messageHeader name ++ (first ++ (right ++ (left ++ rest)))) limit)) := by
  refine ⟨fun second two hSecond => ?_, fun left right two three hLeft hLeftEnd hRight hRightEnd
    hApart rest => ?_⟩
  · have hBoth := readsBody_append hFirst hEnd hSecond
    rw [Message.join] at hBoth
    cases hFind : two.options.keys.find? one.options.contains with
    | some key => rwa [hFind] at hBoth
    | none => rwa [hFind] at hBoth
  · exact agrees_of_feedsApart hFirst hEnd hLeft hLeftEnd hRight hRightEnd hApart rest

/-- A field and an option may change places after another option.  The option that was set
before cannot be set again. -/
theorem message_bodies_field :
    (message.run (.ofTokens (messageHeader "M" ++ (["option", "x", "=", "1", ";"] ++
        ["option", "x", "=", "2", ";"] ++ [Token.closeBrace])) 64)).Fails
      (.duplicate .option "x") ∧
    ∀ rest, (message.run (.ofTokens (messageHeader "M" ++ (["option", "x", "=", "1", ";"] ++
        (["// c", "int32", "a", "=", "1", ";"] ++ (["option", "y", "=", "2", ";"] ++ rest))))
          64)).Agrees
      (message.run (.ofTokens (messageHeader "M" ++ (["option", "x", "=", "1", ";"] ++
        (["option", "y", "=", "2", ";"] ++ (["// c", "int32", "a", "=", "1", ";"] ++ rest))))
          64)) := by
  have hFirst : ReadsBody 64 "M" ["option", "x", "=", "1", ";"]
      { Message.new "M" with options := ⟨[("x", .text "1")]⟩ } :=
    readsBody_of_statement rfl (by decide) rfl rfl rfl rfl
  have hAgain : ReadsBody 64 "M" ["option", "x", "=", "2", ";"]
      { Message.new "M" with options := ⟨[("x", .text "2")]⟩ } :=
    readsBody_of_statement rfl (by decide) rfl rfl rfl rfl
  have hOther : ReadsBody 64 "M" ["option", "y", "=", "2", ";"]
      { Message.new "M" with options := ⟨[("y", .text "2")]⟩ } :=
    readsBody_of_statement rfl (by decide) rfl rfl rfl rfl
  have hField : ReadsBody 64 "M" ["// c", "int32", "a", "=", "1", ";"]
      { Message.new "M" with fields := [⟨"a", .scalar "int32", 1, false, false, none, ∅, ["c"]⟩] } :=
    readsBody_of_statement rfl (by decide) rfl rfl rfl rfl
  have hSemicolon : ∀ tokens, EndsInMember (tokens ++ [";"]) := by
    intro tokens token hLast
    rw [List.getLast?_concat] at hLast
    cases hLast
    rfl
  obtain ⟨hJoin, hSwap⟩ := message_bodies hFirst (hSemicolon ["option", "x", "=", "1"])
  exact ⟨hJoin _ _ hAgain, hSwap _ _ _ _ hField (hSemicolon ["// c", "int32", "a", "=", "1"]) hOther
    (hSemicolon ["option", "y", "=", "2"])
    ⟨.inl rfl, .inl rfl, .inr rfl, .inl rfl, .inl rfl, .inl rfl, .inl rfl⟩⟩

end Grammar
end ProtoIdl
