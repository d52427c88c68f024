import ProtoIdl.Proofs.Commented.Braced
import ProtoIdl.Proofs.Cursor.Balanced

/-!
# Places in messages

A member of a message adds the same to every message, so the comments of a target come into the
message by its last member only if they are in what that member adds.  A block adds what is inside
its braces, and with comments inside, where no brace is opened or closed, it has the same end.
-/

namespace ProtoIdl

/-! ## Comments between braces -/

namespace Balanced

variable {comments front back : List Token}

theorem append_of_comments (hComments : ∀ token ∈ comments, token.isComment = true)
    (hBack : Balanced back) : Balanced (comments ++ back) := by
  induction comments with
  | nil => exact hBack
  | cons token comments ih =>
      have hToken := hComments token (by simp)
      have hRest := ih fun other hMem => hComments other (List.mem_cons_of_mem _ hMem)
      refine .plain ?_ ?_ hRest
      · rintro rfl
        exact absurd hToken (by decide)
      · rintro rfl
        exact absurd hToken (by decide)

/-- Comments that are put between tokens do not change which braces match. -/
theorem insert_comments (hComments : ∀ token ∈ comments, token.isComment = true)
    (hTokens : Balanced (front ++ back)) : Balanced (front ++ (comments ++ back)) := by
  generalize hBoth : front ++ back = tokens at hTokens
  induction hTokens generalizing front back with
  | nil =>
      obtain ⟨rfl, rfl⟩ := List.append_eq_nil_iff.mp hBoth
      show Balanced (comments ++ [])
      exact append_of_comments hComments .nil
  | @plain token rest hOpen hClose hRest ih =>
      cases front with
      | nil =>
          obtain rfl : back = token :: rest := hBoth
          show Balanced (comments ++ token :: rest)
          exact append_of_comments hComments (.plain hOpen hClose hRest)
      | cons first front =>
          obtain ⟨rfl, hRest⟩ := List.cons.inj hBoth
          exact .plain hOpen hClose (ih hRest)
  | @group inner rest hInner hRest ihInner ihRest =>
      cases front with
      | nil =>
          obtain rfl : back = Token.openBrace :: (inner ++ Token.closeBrace :: rest) := hBoth
          show Balanced (comments ++ _)
          exact append_of_comments hComments (.group hInner hRest)
      | cons first front =>
          obtain ⟨rfl, hInside⟩ := List.cons.inj hBoth
          -- the comments stand before the brace that closes the group, or behind it
          rcases List.append_eq_append_iff.mp hInside with
            ⟨middle, hSplit, rfl⟩ | ⟨middle, rfl, hSplit⟩
          · have hGroup := Balanced.group (ihInner hSplit.symm) hRest
            simpa using hGroup
          · cases middle with
            | nil =>
                obtain rfl : Token.closeBrace :: rest = back := hSplit
                have hGroup := Balanced.group (ihInner (List.append_nil inner)) hRest
                simpa using hGroup
            | cons mark middle =>
                obtain ⟨rfl, hTail⟩ := List.cons.inj hSplit
                have hGroup := Balanced.group hInner (ihRest hTail.symm)
                simpa using hGroup

end Balanced

/-- A block that is found is found with comments in it. -/
theorem Cursor.splitBlock?_insert_comments {tokens front back later comments : List Token}
    (hSplit : splitBlock? 0 tokens = some (front ++ back, later))
    (hComments : ∀ token ∈ comments, token.isComment = true) :
    tokens = front ++ (back ++ Token.closeBrace :: later) ∧
      splitBlock? 0 (front ++ (comments ++ (back ++ Token.closeBrace :: later))) =
        some (front ++ (comments ++ back), later) := by
  obtain ⟨rfl, hBlock⟩ := splitBlock?_eq_some_iff.mp hSplit
  refine ⟨by simp, splitBlock?_eq_some_iff.mpr ⟨by simp, ?_⟩⟩
  exact hBlock.insert_comments hComments

/-! ## What a member adds -/

namespace Message

variable {message added joined : Message}

theorem eq_followedBy_of_join (hJoin : message.join added = .ok joined) :
    joined = message.followedBy added := by
  unfold join at hJoin
  split at hJoin
  · cases hJoin
  · cases hJoin
    rfl

theorem withComments_eq {comments : List String} (hComments : message.comments = comments) :
    { message with comments := comments } = message := by
  cases message
  cases hComments
  rfl

/-- Whether two messages can be joined is up to their options. -/
theorem join_of_options_eq {first second : Message} (hJoin : message.join added = .ok joined)
    (hFirst : first.options = message.options) (hSecond : second.options = added.options) :
    first.join second = .ok (first.followedBy second) := by
  unfold join at hJoin ⊢
  rw [hFirst, hSecond]
  split at hJoin
  · cases hJoin
  · rfl

end Message

namespace Grammar

open ProtoIdl.Parser

variable {start after : Cursor} {first : Token} {before : List Token} {target : Declaration}

/-! ## Blocks -/

/-- The comments of a message are not read with its members. -/
theorem comments_of_run_members {message final : Message}
    (hRun : (members message).run start = .ok final after) : final.comments = message.comments := by
  have hMember : ∀ current head (cursor : Cursor), current.comments = message.comments →
      Yields (messageStatement current head) (fun grown => grown.comments = message.comments)
        cursor := by
    intro current head cursor hCurrent
    rw [messageStatement_eq]
    refine .after fun added _ _ => .ofExcept fun grown hJoin => ?_
    rw [Message.eq_followedBy_of_join hJoin]
    exact hCurrent
  rw [members_eq_loop] at hRun
  have hLoop : Yields (loop statementHead messageStatement message)
      (fun grown => grown.comments = message.comments) start :=
    .loop (fun current head cursor _ => hMember current head cursor) rfl
  exact hLoop final after hRun

theorem detached_messageRest : Detached messageRest where
  traced _ _ := traced_messageRest
  closed _ _ := .of_settled settled_messageRest
  looksAhead _ := looksAhead_messageRest

theorem comments_of_run_block {kind : BlockKind} {named : String × Message}
    (hRun : (block kind fun name => members (.new name)).run start = .ok named after) :
    named.2.comments = [] := by
  obtain ⟨name, opened, -, -, -, -, hInside⟩ := exists_of_run_heading hRun
  obtain ⟨inner, last, hInner, hDone⟩ := run_bind_eq_ok_iff.mp hInside
  cases hDone
  obtain ⟨_, _, _, -, -, hMembers, -⟩ := exists_of_run_inside hInner
  exact comments_of_run_members hMembers

theorem comments_of_run_messageRest {decl : Message}
    (hRun : messageRest.run start = .ok decl after) : decl.comments = [] := by
  obtain ⟨named, between, hBlock, hDone⟩ := run_bind_eq_ok_iff.mp hRun
  cases hDone
  exact comments_of_run_block hBlock

theorem opens_message {decl : Message} (hFirst : Keyword.ofToken? first = some .message)
    (hSeen : start.seen ≠ []) (hLevel : start.depth ≤ start.limit)
    (hRun : messageRest.run start = .ok decl after) (hDepth : after.depth = start.depth) :
    (Declaration.message { decl with comments := [] }).Opens start.limit (first :: start.rest) := by
  obtain ⟨text, hText, hReads⟩ :=
    exists_text_of_keyword detached_messageRest hFirst hSeen hLevel hRun hDepth
  rw [Message.withComments_eq (comments_of_run_messageRest hRun)]
  exact ⟨text, after.rest, start.depth, hText, hReads⟩

/-- The members of a body have places for the comments of what they declare. -/
def BodyPlaces (cursor : Cursor) : Prop :=
  ∀ {name : String} {inner : Message} {last : Cursor} {target : Declaration}
    {family : List String → Message}, (∀ token ∈ cursor.rest, token.isComment = false) →
      cursor.depth ≤ cursor.limit → (members (.new name)).run cursor = .ok inner last →
        inner.MemberSlot target family →
          (members (.new name)).Places cursor.depth cursor.limit [] target cursor.rest family
            last.rest

theorem places_block (kind : BlockKind) {named : String × Message}
    {family : List String → Message}
    (hBody : ∀ entered : Cursor, entered.left < start.left → BodyPlaces entered)
    (hPlain : ∀ token ∈ start.rest, token.isComment = false) (hLevel : start.depth ≤ start.limit)
    (hRun : (block kind fun name => members (.new name)).run start = .ok named after)
    (hSlot : named.2.MemberSlot target family) :
    (block kind fun name => members (.new name)).Places start.depth start.limit before target
      start.rest (fun comments => (named.1, family comments)) after.rest := by
  obtain ⟨name, opened, hWord, hRest, hDepth, hLimit, hInside⟩ := exists_of_run_heading hRun
  obtain ⟨inner, last, hInner, hDone⟩ := run_bind_eq_ok_iff.mp hInside
  cases hDone
  obtain ⟨body, later, stop, hSplit, hOpen, hMembers, rfl⟩ := exists_of_run_inside hInner
  have hTokens := Cursor.append_of_splitBlock? hSplit
  have hLess : (blockCursor opened body).left < start.left := by
    have hFewer := left_blockCursor_lt hSplit
    simp only [Cursor.left, hRest, List.length_cons] at hFewer ⊢
    omega
  have hBodyPlain : ∀ token ∈ body, token.isComment = false := fun token hMem =>
    hPlain token (by simp [hRest, hTokens, hMem])
  obtain ⟨front, back, hFront, hMarked, hOpens, hReads⟩ :=
    hBody _ hLess hBodyPlain hOpen hMembers hSlot
  obtain rfl : body = front ++ back := hFront
  have hPlaces : (inside "message" (members (.new name))).Places opened.depth opened.limit []
      target opened.rest family later := by
    refine ⟨front, back ++ Token.closeBrace :: later, by simp [hTokens], hMarked,
      hOpens.append _, fun comments hComments => ?_⟩
    obtain ⟨-, hFound⟩ := Cursor.splitBlock?_insert_comments hSplit hComments
    exact .inside hFound hOpen (hReads comments hComments) _
  rw [hDepth, hLimit] at hPlaces
  rw [hRest]
  exact places_heading hWord hLevel (hPlaces.bind fun comments => .pure _)

theorem partPlaces_message {decl : Message} {family : List String → Message}
    (hFirst : Keyword.ofToken? first = some .message)
    (hBody : ∀ entered : Cursor, entered.left < start.left → BodyPlaces entered)
    (hSeen : start.seen ≠ []) (hPlain : ∀ token ∈ start.rest, token.isComment = false)
    (hLevel : start.depth ≤ start.limit)
    (hRun : (messageRest >>= fun decl => pure { decl with comments := [] }).run start =
      .ok decl after)
    (hDepth : after.depth = start.depth) (hSlot : decl.Slot target family) :
    PartPlaces (fun comments => messageRest >>= fun decl => pure { decl with comments := comments })
      start.depth start.limit first start.rest target family after.rest := by
  obtain ⟨bare, rfl, hBare, hReads⟩ := exists_of_run_build traced_messageRest hRun hDepth
  cases hSlot with
  | own =>
      exact .own (opens_message hFirst hSeen hLevel hBare hDepth) fun comments =>
        hReads.bind (.pure _)
  | member hInner =>
      have hNone : ∀ comments, { family comments with comments := [] } = family comments :=
        fun comments => Message.withComments_eq (hInner.comments_eq comments)
      rw [Message.withComments_eq (comments_of_run_messageRest hBare)] at hInner
      obtain ⟨named, between, hBlock, hDone⟩ := run_bind_eq_ok_iff.mp hBare
      cases hDone
      have hPlaces : messageRest.Places start.depth start.limit [first] target start.rest family
          after.rest :=
        (places_block .message hBody hPlain hLevel hBlock hInner).bind fun _ => .pure _
      refine .inner (hPlaces.bind fun comments => ?_)
      rw [hNone]
      exact .pure _

/-- An `extend` block is not a target itself. -/
theorem partPlaces_extend {declared : ExtendBlock} {family : List String → ExtendBlock}
    (hBody : ∀ entered : Cursor, entered.left < start.left → BodyPlaces entered)
    (hPlain : ∀ token ∈ start.rest, token.isComment = false) (hLevel : start.depth ≤ start.limit)
    (hRun : extendRest.run start = .ok declared after) (hSlot : declared.Slot target family) :
    PartPlaces (fun _ => extendRest) start.depth start.limit first start.rest target family
      after.rest := by
  obtain ⟨named, between, hBlock, hDone⟩ := run_bind_eq_ok_iff.mp hRun
  cases hDone
  obtain ⟨hInner⟩ := hSlot
  exact .inner ((places_block .extend hBody hPlain hLevel hBlock hInner).bind fun _ => .pure _)

/-! ## Members -/

/-- What can begin in a message with a token, blocks apart. -/
theorem messageMember_cases (first : Token) :
    (∀ message comments, messageMember message (comments, first) = pure message) ∨
      (Keyword.ofToken? first = some .enum ∧
        ∀ message comments, messageMember message (comments, first) =
          enumRest >>= fun decl => pure { message with
            enums := message.enums ++ [{ decl with comments := comments }] }) ∨
      (∀ message comments, messageMember message (comments, first) =
        extensionsRest message.extensions >>= fun ranges =>
          pure { message with extensions := ranges }) ∨
      (∀ message comments, messageMember message (comments, first) =
        reservedRest maxFieldNumber message.reserved >>= fun reserved =>
          pure { message with reserved := reserved }) ∨
      (∀ message comments, messageMember message (comments, first) =
        oneofRest message.fields >>= fun fields => pure { message with fields := fields }) ∨
      (∀ message comments, messageMember message (comments, first) =
        bindOptionRest message.options >>= fun options =>
          pure { message with options := options }) ∨
      ∀ message comments, messageMember message (comments, first) =
        fieldRest comments first >>= fun field =>
          pure { message with fields := message.fields ++ [field] } := by
  by_cases hEmpty : first = ";"
  · exact .inl fun _ _ => if_pos hEmpty
  · simp only [messageMember, if_neg hEmpty]
    split
    · next hFirst => exact .inr (.inl ⟨hFirst, fun _ _ => rfl⟩)
    · exact .inr (.inr (.inl fun _ _ => rfl))
    · exact .inr (.inr (.inr (.inl fun _ _ => rfl)))
    · exact .inr (.inr (.inr (.inr (.inl fun _ _ => rfl))))
    · exact .inr (.inr (.inr (.inr (.inr (.inl fun _ _ => rfl)))))
    · exact .inr (.inr (.inr (.inr (.inr (.inr fun _ _ => rfl)))))

/-- A member that is added to nothing is the target itself, or the target is inside it. -/
theorem partPlaces_messageMember {added : Message} {family : List String → Message}
    (hSeen : start.seen ≠ []) (hPlain : ∀ token ∈ start.rest, token.isComment = false)
    (hLevel : start.depth ≤ start.limit)
    (hRun : (messageMember (.new "") ([], first)).run start = .ok added after)
    (hDepth : after.depth = start.depth) (hSlot : added.MemberSlot target family) :
    PartPlaces (fun comments => messageMember (.new "") (comments, first)) start.depth start.limit
      first start.rest target family after.rest := by
  rcases messageMember_cases first with
    hMember | ⟨hFirst, hMember⟩ | hMember | hMember | hMember | hMember | hMember
  · -- a semicolon adds nothing that could be the target
    rw [hMember] at hRun
    cases hRun
    exact absurd hSlot (Message.not_memberSlot_new "")
  · -- the target is the enum, or a value of it
    have hItem : ∀ comments, messageMember (.new "") (comments, first) =
        (enumRest >>= fun decl => pure { decl with comments := comments }) >>= fun decl =>
          pure { Message.new "" with enums := [decl] } := by
      intro comments
      rw [hMember, bind_assoc]
      simp only [pure_bind]
      rfl
    rw [hItem] at hRun
    obtain ⟨decl, between, hDecl, hDone⟩ := run_bind_eq_ok_iff.mp hRun
    cases hDone
    obtain ⟨own, hOwn, hFamily⟩ := hSlot.of_enum
    refine (partPlaces_enum hFirst hSeen hPlain hLevel hDecl hDepth hOwn).bind hItem
      fun comments => ?_
    rw [hFamily]
    exact .pure _
  · -- ranges, reserved entries and options have no comments
    rw [hMember] at hRun
    obtain ⟨ranges, rfl, -, -⟩ := exists_of_run_build (traced_extensionsRest _) hRun hDepth
    exact absurd hSlot (Message.not_memberSlot rfl rfl rfl rfl)
  · rw [hMember] at hRun
    obtain ⟨reserved, rfl, -, -⟩ := exists_of_run_build (traced_reservedRest _ _) hRun hDepth
    exact absurd hSlot (Message.not_memberSlot rfl rfl rfl rfl)
  · -- the target is a field of the group
    rw [hMember] at hRun
    obtain ⟨fields, rfl, hFields, -⟩ := exists_of_run_build (traced_oneofRest _) hRun hDepth
    obtain ⟨own, hOwn, hFamily⟩ := hSlot.of_fields
    refine .inner ?_
    rw [hMember]
    refine (places_oneofRest hPlain hLevel hFields hOwn).bind fun comments => ?_
    rw [hFamily]
    exact .pure _
  · rw [hMember] at hRun
    obtain ⟨options, rfl, -, -⟩ := exists_of_run_build (traced_bindOptionRest _) hRun hDepth
    exact absurd hSlot (Message.not_memberSlot rfl rfl rfl rfl)
  · -- the target is the field
    have hItem : ∀ comments, messageMember (.new "") (comments, first) =
        (fieldRest comments first >>= fun field => pure { field with oneof := none }) >>=
          fun field => pure { Message.new "" with fields := [field] } := by
      intro comments
      rw [hMember, fieldRest_ungrouped]
      rfl
    rw [hItem] at hRun
    obtain ⟨field, between, hField, hDone⟩ := run_bind_eq_ok_iff.mp hRun
    cases hDone
    obtain ⟨list, hList, hFamily⟩ := hSlot.of_fields
    obtain ⟨own, hOwn, hSame⟩ := hList.of_singleton
    refine (partPlaces_field hSeen hPlain hLevel hField hDepth hOwn).bind hItem fun comments => ?_
    rw [hFamily, hSame]
    exact .pure _

/-- The same for all members, blocks included. -/
theorem partPlaces_added {added : Message} {family : List String → Message}
    (hBody : ∀ entered : Cursor, entered.left < start.left → BodyPlaces entered)
    (hSeen : start.seen ≠ []) (hPlain : ∀ token ∈ start.rest, token.isComment = false)
    (hLevel : start.depth ≤ start.limit)
    (hRun : (messageStatement (.new "") ([], first)).run start = .ok added after)
    (hDepth : after.depth = start.depth) (hSlot : added.MemberSlot target family) :
    PartPlaces (fun comments => messageStatement (.new "") (comments, first)) start.depth
      start.limit first start.rest target family after.rest := by
  cases hKind : BlockKind.ofToken? first with
  | none =>
      have hMember : ∀ comments, messageStatement (.new "") (comments, first) =
          messageMember (.new "") (comments, first) := by
        intro comments
        simp only [messageStatement, hKind]
      simp only [hMember] at hRun ⊢
      exact partPlaces_messageMember hSeen hPlain hLevel hRun hDepth hSlot
  | some kind =>
      have hFirst := BlockKind.keyword_of_ofToken? hKind
      cases kind with
      | message =>
          -- the comments are set on the message after its block has been read
          have hItem : ∀ comments, messageStatement (.new "") (comments, first) =
              (messageRest >>= fun decl => pure { decl with comments := comments }) >>= fun decl =>
                pure { Message.new "" with messages := [decl] } := by
            intro comments
            simp only [messageStatement, hKind, messageRest, bind_assoc, pure_bind]
            rfl
          rw [hItem] at hRun
          obtain ⟨decl, between, hDecl, hDone⟩ := run_bind_eq_ok_iff.mp hRun
          cases hDone
          obtain ⟨own, hOwn, hFamily⟩ := hSlot.of_message
          refine (partPlaces_message hFirst hBody hSeen hPlain hLevel hDecl hDepth hOwn).bind hItem
            fun comments => ?_
          rw [hFamily]
          exact .pure _
      | extend =>
          -- a block has no comments, so the target is inside it
          have hItem : ∀ comments, messageStatement (.new "") (comments, first) =
              extendRest >>= fun declared =>
                pure { Message.new "" with extendBlocks := [declared] } := by
            intro comments
            simp only [messageStatement, hKind, extendRest, bind_assoc, pure_bind]
            rfl
          rw [hItem] at hRun
          obtain ⟨declared, between, hDeclared, hDone⟩ := run_bind_eq_ok_iff.mp hRun
          cases hDone
          obtain ⟨own, hOwn, hFamily⟩ := hSlot.of_block
          refine (partPlaces_extend hBody hPlain hLevel hDeclared hOwn).bind hItem
            fun comments => ?_
          rw [hFamily]
          exact .pure _

/-- A target that is in what a member leaves was in the message before, or the member has a place
for its comments. -/
theorem memberPlaces_messageStatement {message grown : Message}
    {family : List String → Message}
    (hBody : ∀ entered : Cursor, entered.left < start.left → BodyPlaces entered)
    (hSeen : start.seen ≠ []) (hPlain : ∀ token ∈ start.rest, token.isComment = false)
    (hLevel : start.depth ≤ start.limit)
    (hRun : (messageStatement message ([], first)).run start = .ok grown after)
    (hDepth : after.depth = start.depth) (hSlot : grown.MemberSlot target family) :
    MemberPlaces Message.MemberSlot messageStatement start.depth start.limit message first
      start.rest target family after.rest := by
  rw [messageStatement_eq] at hRun
  obtain ⟨added, between, hAdded, hResult⟩ := run_bind_eq_ok_iff.mp hRun
  obtain ⟨hJoin, rfl⟩ := eq_of_run_ofExcept hResult
  have hGrown := Message.eq_followedBy_of_join hJoin
  subst hGrown
  have hReads : (messageStatement (.new "") ([], first)).ReadsAt start.depth start.limit start.rest
      added after.rest := .of_run (traced_messageStatement _ _ hSeen) hAdded hDepth
  rcases hSlot.of_followedBy with ⟨earlier, hEarlier, hFamily⟩ | ⟨later, hLater, hFamily⟩
  · refine .earlier hEarlier fun comments => ?_
    rw [messageStatement_eq, hFamily]
    exact hReads.bind (.ofExcept (Message.join_of_options_eq hJoin
      (hEarlier.options_eq comments) rfl))
  · have hAgain : ∀ comments, message.join (later comments) =
        .ok (message.followedBy (later comments)) := fun comments =>
      Message.join_of_options_eq hJoin rfl (hLater.options_eq comments)
    have hPart := partPlaces_added hBody hSeen hPlain hLevel hAdded hDepth hLater
    refine (hPart.bind (fun _ => messageStatement_eq ..) fun comments => ?_).memberPlaces
    rw [hFamily]
    exact .ofExcept (hAgain comments)

/-- The members of a body have places for the comments of all that they declare, at any depth. -/
theorem bodyPlaces (cursor : Cursor) : BodyPlaces cursor := by
  induction hLeft : cursor.left using Nat.strongRecOn generalizing cursor with
  | ind left ih =>
      intro name inner last target family hPlain hLevel hRun hSlot
      rw [members_eq_loop] at hRun ⊢
      have hEmpty : cursor.depth + (Message.new name).innerNesting ≤ cursor.limit := hLevel
      have hPlaces := places_or_earlier takesComments_statementHead steady_messageStatement
        (fun hLess hSeen hStart hStartLevel =>
          memberPlaces_messageStatement (fun entered hEntered => ih entered.left (by omega) entered
            rfl) hSeen hStart hStartLevel) hPlain hEmpty hRun hSlot
      rcases hPlaces with ⟨_, hBefore, -⟩ | hPlaces
      · exact absurd hBefore (Message.not_memberSlot_new name)
      · exact hPlaces

end Grammar
end ProtoIdl
