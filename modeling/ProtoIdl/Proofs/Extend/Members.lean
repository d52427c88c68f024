import ProtoIdl.Proofs.Bracket.File
import ProtoIdl.Proofs.Extend.Blocks
import ProtoIdl.Proofs.Extend.Layout

/-!
# What the tokens of a body decide

`Message.FitsIn kind` is what the body of a block of this kind must be for all blocks to hold
fields alone: in the body of an `extend` block there may be fields, and in either body the
condition is on the blocks inside.  A member keeps a body in it if it fits in itself, and its
tokens tell whether it does.  `Layout.Decides` says so of one member, and of all of a body.
-/

namespace ProtoIdl

open Grammar (BlockKind)

/-! ## Members that fit -/

namespace Message

/-- A body may stand in a block of this kind where all blocks hold fields alone. -/
def FitsIn (kind : BlockKind) (message : Message) : Prop :=
  (kind = .extend → message.HoldsFields) ∧ message.BlocksHoldFields

theorem holdsFields_new (name : String) : (new name).HoldsFields :=
  ⟨rfl, rfl, rfl, rfl, rfl, rfl⟩

theorem fitsIn_new (kind : BlockKind) (name : String) : (new name).FitsIn kind :=
  ⟨fun _ => holdsFields_new name,
    fun _ hDeclares => absurd hDeclares (holdsFields_new name).not_declares⟩

theorem holdsFields_fields (message : Message) (fields : List Field) :
    HoldsFields { message with fields := fields } ↔ message.HoldsFields :=
  ⟨fun ⟨hMessages, hEnums, hBlocks, hExtensions, hReserved, hOptions⟩ =>
      ⟨hMessages, hEnums, hBlocks, hExtensions, hReserved, hOptions⟩,
    fun ⟨hMessages, hEnums, hBlocks, hExtensions, hReserved, hOptions⟩ =>
      ⟨hMessages, hEnums, hBlocks, hExtensions, hReserved, hOptions⟩⟩

/-- The condition on the blocks of a message reads its messages and blocks alone. -/
theorem blocksHoldFields_congr {first second : Message}
    (hMessages : first.messages = second.messages)
    (hBlocks : first.extendBlocks = second.extendBlocks) :
    first.BlocksHoldFields ↔ second.BlocksHoldFields := by
  rw [blocksHoldFields_iff, blocksHoldFields_iff, hMessages, hBlocks]

end Message

section Parts

variable {messages : List Message} {blocks : List ExtendBlock} {inner : Message}

/-- A further message must fit in the body of a message. -/
theorem partsHoldFields_concat_message (comments : List String) :
    PartsHoldFields (messages ++ [{ inner with comments := comments }]) blocks ↔
      PartsHoldFields messages blocks ∧ inner.FitsIn .message := by
  have hInner : Message.BlocksHoldFields { inner with comments := comments } ↔
      inner.BlocksHoldFields := Message.blocksHoldFields_congr rfl rfl
  have hFits : inner.FitsIn .message ↔ inner.BlocksHoldFields :=
    ⟨And.right, fun hBlocks => ⟨nofun, hBlocks⟩⟩
  rw [PartsHoldFields, List.forall_mem_append, List.forall_mem_singleton, hInner, hFits,
    PartsHoldFields]
  exact and_right_comm

/-- A further block must have a body that fits in it. -/
theorem partsHoldFields_concat_block (target : String) :
    PartsHoldFields messages (blocks ++ [⟨target, inner⟩]) ↔
      PartsHoldFields messages blocks ∧ inner.FitsIn .extend := by
  have hFits : inner.FitsIn .extend ↔ inner.HoldsFields ∧ inner.BlocksHoldFields :=
    ⟨fun hInner => ⟨hInner.1 rfl, hInner.2⟩, fun hInner => ⟨fun _ => hInner.1, hInner.2⟩⟩
  rw [PartsHoldFields, List.forall_mem_append, List.forall_mem_singleton, hFits, PartsHoldFields]
  exact and_assoc.symm

end Parts

/-- A block keeps a body in its kind if that is the kind of a message and the block fits. -/
theorem fitsIn_addBlock {outer kind : BlockKind} {message inner : Message}
    (comments : List String) (name : String) :
    (Grammar.addBlock message kind comments name inner).FitsIn outer ↔
      message.FitsIn outer ∧ outer ≠ .extend ∧ inner.FitsIn kind := by
  -- either kind of block is more than a field
  have hMore : ¬(Grammar.addBlock message kind comments name inner).HoldsFields := by
    intro hHolds
    cases kind with
    | message => exact List.append_ne_nil_of_right_ne_nil _ (by simp) hHolds.messages
    | extend => exact List.append_ne_nil_of_right_ne_nil _ (by simp) hHolds.extendBlocks
  have hBlocks : (Grammar.addBlock message kind comments name inner).BlocksHoldFields ↔
      message.BlocksHoldFields ∧ inner.FitsIn kind := by
    rw [Message.blocksHoldFields_iff, Message.blocksHoldFields_iff]
    cases kind with
    | message => exact partsHoldFields_concat_message comments
    | extend => exact partsHoldFields_concat_block name
  rw [Message.FitsIn, Message.FitsIn, hBlocks]
  cases outer <;> simp [hMore]

/-! ## Members without a block -/

namespace Grammar

open ProtoIdl.Parser

variable {cursor : Cursor}

theorem yields_extensionsRest_ne_nil (ranges : List ExtensionRange) :
    Yields (extensionsRest ranges) (· ≠ []) cursor :=
  .commaList_of_item (fun _ _ => .after fun range _ _ => .pure (by simp)) _ _ _

theorem yields_reservedRest_ne_nil (max : Int) (reserved : List Reserved) :
    Yields (reservedRest max reserved) (· ≠ []) cursor :=
  .commaList_of_item (fun _ _ => .after fun entry _ _ => .pure (by simp)) _ _ _

theorem yields_bindOptionRest_ne_empty (options : OptionMap) :
    Yields (bindOptionRest options) (· ≠ ∅) cursor := by
  refine .after fun binding _ _ => .ofExcept fun grown hBind hEmpty => ?_
  rw [OptionMap.eq_append_of_bind hBind] at hEmpty
  have hEntries := congrArg OptionMap.entries hEmpty
  rw [OptionMap.entries_append] at hEntries
  exact List.append_ne_nil_of_right_ne_nil _ (by simp) hEntries

/-- What a member without a block makes of a message: there are the same messages and blocks,
and fields alone if there were before and no other member has been added. -/
structure AddsMember (first : Token) (message grown : Message) : Prop where
  messages : grown.messages = message.messages
  extendBlocks : grown.extendBlocks = message.extendBlocks
  holdsFields_iff : grown.HoldsFields ↔ message.HoldsFields ∧ first.isForeign = false

namespace AddsMember

variable {first : Token} {message grown : Message}

/-- A member other than a field. -/
theorem foreign {keyword : Keyword} (hFirst : Keyword.ofToken? first = some keyword)
    (hKeyword : keyword.isForeign = true) (hMessages : grown.messages = message.messages)
    (hBlocks : grown.extendBlocks = message.extendBlocks) (hMore : ¬grown.HoldsFields) :
    AddsMember first message grown := by
  refine ⟨hMessages, hBlocks, iff_of_false hMore fun hBoth => ?_⟩
  rw [Token.isForeign, hFirst, Option.any_some, hKeyword] at hBoth
  exact nomatch hBoth.2

theorem nothing (hFirst : first.isForeign = false) : AddsMember first message message :=
  ⟨rfl, rfl, (and_iff_left hFirst).symm⟩

theorem fields (hFirst : first.isForeign = false) (fields : List Field) :
    AddsMember first message { message with fields := fields } := by
  refine ⟨rfl, rfl, ?_⟩
  rw [and_iff_left hFirst]
  exact message.holdsFields_fields fields

end AddsMember

/-- A token is not foreign if it announces neither a block nor one of the other members. -/
theorem isForeign_eq_false {token : Token} (hKind : BlockKind.ofToken? token = none)
    (hEnum : Keyword.ofToken? token ≠ some .enum)
    (hExtensions : Keyword.ofToken? token ≠ some .extensions)
    (hReserved : Keyword.ofToken? token ≠ some .reserved)
    (hOption : Keyword.ofToken? token ≠ some .option) : token.isForeign = false := by
  unfold Token.isForeign
  unfold BlockKind.ofToken? at hKind
  cases hKeyword : Keyword.ofToken? token with
  | none => rfl
  | some keyword =>
      -- a keyword is excluded by one of the hypotheses, or it is not foreign
      rw [hKeyword] at hKind
      cases keyword <;> first | rfl | contradiction

theorem yields_messageMember_adds {message : Message} {head : List String × Token}
    (hKind : BlockKind.ofToken? head.2 = none) :
    Yields (messageMember message head) (AddsMember head.2 message) cursor := by
  unfold messageMember
  split
  · next hEmpty =>
      have hFirst : head.2.isForeign = false := by rw [hEmpty]; decide
      exact .pure (.nothing hFirst)
  · split
    · next hFirst =>
        refine .after fun decl _ _ => .pure (.foreign hFirst rfl rfl rfl fun hHolds => ?_)
        exact List.append_ne_nil_of_right_ne_nil _ (by simp) hHolds.enums
    · next hFirst =>
        refine .bind (yields_extensionsRest_ne_nil _) fun ranges _ _ hRanges => .pure ?_
        exact .foreign hFirst rfl rfl rfl fun hHolds => hRanges hHolds.extensions
    · next hFirst =>
        refine .bind (yields_reservedRest_ne_nil _ _) fun reserved _ _ hReserved => .pure ?_
        exact .foreign hFirst rfl rfl rfl fun hHolds => hReserved hHolds.reserved
    · next hFirst =>
        have hOneof : head.2.isForeign = false := by rw [Token.isForeign, hFirst]; rfl
        exact .after fun fields _ _ => .pure (.fields hOneof fields)
    · next hFirst =>
        refine .bind (yields_bindOptionRest_ne_empty _) fun options _ _ hOptions => .pure ?_
        exact .foreign hFirst rfl rfl rfl fun hHolds => hOptions hHolds.options
    · next hEnum hExtensions hReserved hOneof hOption =>
        -- every other token starts a field
        have hFirst := isForeign_eq_false hKind hEnum hExtensions hReserved hOption
        exact .after fun field _ _ => .pure (.fields hFirst (message.fields ++ [field]))

end Grammar

/-! ## What tokens decide -/

namespace Layout

/-- The tokens of members tell whether a condition that holds before them holds after them:
exactly if they are admitted.  The next member starts after them. -/
structure Decides (bodies : List BlockKind) (before later : Prop) (tokens : List Token) :
    Prop where
  later_iff : later ↔ before ∧ (start bodies).admits tokens = true
  after : (start bodies).after tokens = start bodies

namespace Decides

variable {bodies : List BlockKind} {before between later : Prop} {first second : List Token}

theorem append (hFirst : Decides bodies before between first)
    (hSecond : Decides bodies between later second) :
    Decides bodies before later (first ++ second) := by
  refine ⟨?_, ?_⟩
  · rw [hSecond.later_iff, hFirst.later_iff, admits_append, hFirst.after, Bool.and_eq_true,
      and_assoc]
  · rw [after_append, hFirst.after, hSecond.after]

theorem comments {tokens : List Token} (hComments : ∀ token ∈ tokens, token.isComment = true) :
    Decides bodies before before tokens := by
  have hPasses := passes_comments hComments (start bodies)
  exact ⟨(and_iff_left hPasses.admits).symm, hPasses.after⟩

theorem nil : Decides bodies before before [] :=
  comments nofun

/-- A statement decides by its first token. -/
theorem member {head : Token} {used : List Token} (hMember : IsMember head used)
    (hKind : BlockKind.ofToken? head = none)
    (hLater : later ↔ before ∧ (start bodies).strays head = false) :
    Decides bodies before later (head :: used) := by
  obtain ⟨hAdmits, hAfter⟩ := reads_member hMember hKind bodies
  refine ⟨?_, hAfter⟩
  rw [hAdmits, Bool.not_eq_true', hLater]

/-- A block decides by its keyword and by what is in its body. -/
theorem block {kind : BlockKind} {keyword name : Token} {inner : List Token}
    {empty fits : Prop} (hKind : BlockKind.ofToken? keyword = some kind)
    (hName : name.isWordLike = true) (hInner : Decides (kind :: bodies) empty fits inner)
    (hEmpty : empty)
    (hLater : later ↔ before ∧ (start bodies).strays keyword = false ∧ fits) :
    Decides bodies before later
      (keyword :: name :: Token.openBrace :: (inner ++ [Token.closeBrace])) := by
  have hWord := BlockKind.isWordLike_of_ofToken? hKind
  obtain ⟨hAdmits, hAfter⟩ := reads_block hKind hWord hName hInner.after
  refine ⟨?_, hAfter⟩
  rw [hAdmits, Bool.and_eq_true, Bool.not_eq_true', hLater, hInner.later_iff,
    and_iff_right hEmpty]

end Decides

theorem strays_start_cons (kind : BlockKind) (bodies : List BlockKind) (token : Token) :
    (start (kind :: bodies)).strays token = (kind == .extend && token.isForeign) := by
  cases kind <;> rfl

/-- Outside of all bodies nothing strays. -/
theorem strays_start_nil (token : Token) : (start []).strays token = false :=
  rfl

theorem isForeign_of_block {token : Token} {kind : BlockKind}
    (hKind : BlockKind.ofToken? token = some kind) : token.isForeign = true := by
  rw [Token.isForeign, BlockKind.keyword_of_ofToken? hKind]
  cases kind <;> rfl

end Layout

namespace Grammar

open ProtoIdl.Parser
open Layout (Decides)

variable {cursor : Cursor} {bodies : List BlockKind}

/-- A loop over statements decides a condition on its state that each statement decides. -/
theorem spans_statementLoop_decides {item : σ → List String × Token → Parser σ} {good : σ → Prop}
    (hItem : ∀ state head start, start.left < cursor.left → Spans (item state head)
      (fun grown used => Decides bodies (good state) (good grown) (head.2 :: used)) start)
    (state : σ) :
    Spans (loop statementHead item state)
      (fun final used => Decides bodies (good state) (good final) used) cursor := by
  apply Spans.loop (fun _ => spans_statementHead) hItem
  · rintro state used ⟨comments, hComments, rfl⟩
    exact (Decides.comments hComments).append .nil
  · rintro state head grown final before used more ⟨comments, hComments, rfl⟩ hUsed hMore
    simpa using (Decides.comments hComments).append (hUsed.append hMore)

/-- A member without a block keeps a body in its kind if that is the kind of a message or the
first token does not stray. -/
theorem AddsMember.fitsIn_iff {kind : BlockKind} {message grown : Message} {first : Token}
    (hAdds : AddsMember first message grown) :
    grown.FitsIn kind ↔
      message.FitsIn kind ∧ (Layout.start (kind :: bodies)).strays first = false := by
  have hInside := Message.blocksHoldFields_congr hAdds.messages hAdds.extendBlocks
  rw [Message.FitsIn, Message.FitsIn, hInside, hAdds.holdsFields_iff, Layout.strays_start_cons]
  cases kind with
  | message => simp
  | extend => simp [and_right_comm]

/-- A block keeps a body in its kind if its keyword does not stray and the block fits. -/
theorem fitsIn_block_iff {outer kind : BlockKind} {message inner : Message} {first : Token}
    (hKind : BlockKind.ofToken? first = some kind) (comments : List String) (name : String) :
    (addBlock message kind comments name inner).FitsIn outer ↔
      message.FitsIn outer ∧ (Layout.start (outer :: bodies)).strays first = false ∧
        inner.FitsIn kind := by
  rw [fitsIn_addBlock, Layout.strays_start_cons, Layout.isForeign_of_block hKind, Bool.and_true,
    beq_eq_false_iff_ne]

/-- The tokens of a body decide whether the message read from it fits. -/
theorem spans_members_decides (kind : BlockKind) (bodies : List BlockKind) (message : Message) :
    Spans (members message)
      (fun final used => Decides (kind :: bodies) (message.FitsIn kind) (final.FitsIn kind) used)
      cursor := by
  induction hLeft : cursor.left using Nat.strongRecOn generalizing kind bodies message cursor with
  | ind left ih =>
      rw [members_eq_loop]
      refine spans_statementLoop_decides (fun message head start hStart => ?_) message
      unfold messageStatement
      split
      · next hKind =>
          refine .mono (.and_yields (spans_messageMember message head)
            (yields_messageMember_adds hKind)) fun grown used hUsed => ?_
          exact .member hUsed.1 hKind hUsed.2.fitsIn_iff
      · next inner hKind =>
          -- the body of the block is shorter than what is ahead, and it stands one level further in
          have hBlock := spans_block inner fun name (entered : Cursor) (hLess : _ < start.left) =>
            ih entered.left (by omega) inner (kind :: bodies) (.new name) rfl
          refine .bind hBlock fun named used _ _ hUsed => .pure ?_
          obtain ⟨hName, body, rfl, hBody⟩ := hUsed
          rw [List.append_nil]
          exact .block hKind hName hBody (Message.fitsIn_new inner named.1)
            (fitsIn_block_iff hKind head.1 named.1)

end Grammar
end ProtoIdl
