import ProtoIdl.Proofs.Local.Concat

/-!
# Members are read one by one and joined

`Message.join` puts the members of one message after those of another, and refuses an option
that both set.  A member adds the same to every message: it is read on its own and then joined.
So are all members that are left in a body, since joining is associative.
-/

namespace ProtoIdl

/-! ## Joining -/

namespace OptionMap

theorem followedBy_assoc (first second third : OptionMap) :
    (first.followedBy second).followedBy third = first.followedBy (second.followedBy third) := by
  simp only [followedBy, List.append_assoc]

theorem keys_followedBy (first second : OptionMap) :
    (first.followedBy second).keys = first.keys ++ second.keys :=
  List.map_append

end OptionMap

namespace Message

/-- The members of one message followed by those of another.  The name and the comments are
those of the first. -/
def followedBy (first second : Message) : Message :=
  { first with
    messages := first.messages ++ second.messages
    enums := first.enums ++ second.enums
    fields := first.fields ++ second.fields
    extendBlocks := first.extendBlocks ++ second.extendBlocks
    extensions := first.extensions ++ second.extensions
    reserved := first.reserved ++ second.reserved
    options := first.options.followedBy second.options }

/-- The members of one message followed by those of another, unless both set an option. -/
def join (first second : Message) : Except ParseError Message :=
  match second.options.keys.find? first.options.contains with
  | some key => .error (.duplicate .option key)
  | none => .ok (first.followedBy second)

variable {first second third joined : Message}

theorem followedBy_assoc (first second third : Message) :
    (first.followedBy second).followedBy third = first.followedBy (second.followedBy third) := by
  simp only [followedBy, List.append_assoc, OptionMap.followedBy_assoc]

theorem join_of_find?_eq_none
    (hNew : second.options.keys.find? first.options.contains = none) :
    first.join second = .ok (first.followedBy second) := by
  rw [join, hNew]

/-- A message without members adds nothing. -/
theorem followedBy_new (message : Message) (name : String) :
    message.followedBy (.new name) = message := by
  cases message
  simp only [followedBy, new, OptionMap.followedBy_empty, List.append_nil]

/-- What sets no option can be joined to anything. -/
theorem join_of_options_eq_empty (first : Message) (hOptions : second.options = ∅) :
    first.join second = .ok (first.followedBy second) :=
  join_of_find?_eq_none (by rw [hOptions]; rfl)

/-- Anything can be joined to a message without members. -/
theorem new_join (name : String) (second : Message) :
    (Message.new name).join second = .ok ((Message.new name).followedBy second) :=
  join_of_find?_eq_none (List.find?_eq_none.mpr fun _ _ => Bool.false_ne_true)

/-- Only the members of the second message are joined to the first. -/
theorem join_new_followedBy (first : Message) (name : String) (second : Message) :
    first.join ((Message.new name).followedBy second) = first.join second := rfl

/-- Where two messages can be joined, a third one may be joined to either. -/
theorem join_assoc (hJoin : second.join third = .ok joined) :
    (first.join second).bind (·.join third) = first.join joined := by
  rw [join] at hJoin
  split at hJoin
  · cases hJoin
  · next hApart =>
      cases hJoin
      have hKeys : (second.followedBy third).options.keys =
          second.options.keys ++ third.options.keys := OptionMap.keys_followedBy _ _
      -- a key of the third is not in the second, so it is in the first if in both together
      have hSame : third.options.keys.find? (first.followedBy second).options.contains =
          third.options.keys.find? first.options.contains := by
        rw [← List.head?_filter, ← List.head?_filter]
        refine congrArg List.head? (List.filter_congr fun key hMem => ?_)
        have hNot := List.find?_eq_none.mp hApart key hMem
        rw [Bool.not_eq_true] at hNot
        rw [followedBy, OptionMap.contains_followedBy, hNot, Bool.or_false]
      unfold join
      rw [hKeys, List.find?_append]
      cases second.options.keys.find? first.options.contains with
      | some key => rfl
      | none =>
          dsimp only [Except.bind, Option.none_or]
          rw [hSame, followedBy_assoc]

/-- What cannot be joined to a message cannot be joined after it. -/
theorem exists_error_of_join {fault : ParseError} (hJoin : second.join third = .error fault)
    (hFirst : first.join second = .ok joined) : ∃ other, joined.join third = .error other := by
  rw [join] at hJoin hFirst
  split at hFirst
  · cases hFirst
  · cases hFirst
    split at hJoin
    · next key hClash =>
        rw [join]
        split
        · next other _ => exact ⟨_, rfl⟩
        · next hNone =>
            have hBoth := List.find?_eq_none.mp hNone key (List.mem_of_find?_eq_some hClash)
            rw [followedBy, OptionMap.contains_followedBy, List.find?_some hClash,
              Bool.or_true] at hBoth
            exact absurd rfl hBoth
    · cases hJoin

/-- Two messages with members of different kinds. -/
structure FeedsApart (first second : Message) : Prop where
  messages : first.messages = [] ∨ second.messages = []
  enums : first.enums = [] ∨ second.enums = []
  fields : first.fields = [] ∨ second.fields = []
  extendBlocks : first.extendBlocks = [] ∨ second.extendBlocks = []
  extensions : first.extensions = [] ∨ second.extensions = []
  reserved : first.reserved = [] ∨ second.reserved = []
  options : first.options = ∅ ∨ second.options = ∅

theorem FeedsApart.symm (hApart : first.FeedsApart second) : second.FeedsApart first :=
  ⟨hApart.messages.symm, hApart.enums.symm, hApart.fields.symm, hApart.extendBlocks.symm,
    hApart.extensions.symm, hApart.reserved.symm, hApart.options.symm⟩

theorem append_append_comm {start one two : List α} (hApart : one = [] ∨ two = []) :
    start ++ one ++ two = start ++ two ++ one := by
  rcases hApart with rfl | rfl <;> simp

theorem FeedsApart.followedBy_comm (hApart : first.FeedsApart second) (start : Message) :
    (start.followedBy first).followedBy second = (start.followedBy second).followedBy first := by
  have hOptions : (start.options.followedBy first.options).followedBy second.options =
      (start.options.followedBy second.options).followedBy first.options := by
    rcases hApart.options with hNone | hNone <;> rw [hNone, OptionMap.followedBy_empty,
      OptionMap.followedBy_empty]
  simp only [followedBy, append_append_comm hApart.messages, append_append_comm hApart.enums,
    append_append_comm hApart.fields, append_append_comm hApart.extendBlocks,
    append_append_comm hApart.extensions, append_append_comm hApart.reserved, hOptions]

theorem join_comm_of_options (hApart : first.FeedsApart second) (hNone : first.options = ∅)
    (start : Message) :
    (start.join first).bind (·.join second) = (start.join second).bind (·.join first) := by
  have hSame : (start.followedBy first).options = start.options := by
    rw [followedBy, hNone, OptionMap.followedBy_empty]
  rw [join_of_options_eq_empty start hNone]
  dsimp only [Except.bind]
  unfold join
  rw [hSame]
  cases second.options.keys.find? start.options.contains with
  | some key => rfl
  | none =>
      show _ = join (start.followedBy second) first
      rw [join_of_options_eq_empty _ hNone, hApart.followedBy_comm]

/-- Messages with members of different kinds may be joined in either order. -/
theorem FeedsApart.join_comm (hApart : first.FeedsApart second) (start : Message) :
    (start.join first).bind (·.join second) = (start.join second).bind (·.join first) := by
  rcases hApart.options with hNone | hNone
  · exact join_comm_of_options hApart hNone start
  · exact (join_comm_of_options hApart.symm hNone start).symm

end Message

namespace Parser

/-! ## Changes of the state of a loop -/

/-- A loop goes on in the same way from another state if its items do. -/
theorem loop_map (change : σ → τ) {head : Head η} {item : σ → η → Parser σ}
    {other : τ → η → Parser τ}
    (hItem : ∀ state found, other (change state) found = change <$> item state found)
    (state : σ) : loop head other (change state) = change <$> loop head item state := by
  ext cursor
  rw [map_eq_pure_bind]
  induction hLeft : cursor.left using Nat.strongRecOn generalizing state cursor with
  | ind left ih =>
      rw [run_bind, loop_eq, loop_eq, run_bind, run_bind]
      cases hHead : head.run cursor with
      | error fault after => rfl
      | ok found between =>
          cases found with
          | none => rfl
          | some found =>
              have hLess := head.progress cursor _ between hHead rfl
              dsimp only
              rw [hItem, map_eq_pure_bind, bind_assoc, run_bind, run_bind]
              cases hRun : (item state found).run between with
              | error fault after => rfl
              | ok grown after =>
                  have hLe := (onward_of_ok hRun).left_le
                  exact ih after.left (by omega) grown after rfl

theorem commaList_map (change : σ → τ) {item : σ → Parser σ} {other : τ → Parser τ}
    (hItem : ∀ state, other (change state) = change <$> item state) (close : Token)
    (context : String) (state : σ) :
    commaList close context other (change state) =
      change <$> commaList close context item state := by
  simp only [commaList, hItem, map_bind, bind_map_left]
  congr 1
  funext first
  exact loop_map change (fun state _ => hItem state) first

/-- Items that are added at the end of a list come after those that are there. -/
theorem commaList_append (item : Parser α) (close : Token) (context : String) (done : List α) :
    commaList close context (fun list => item >>= fun value => pure (list ++ [value])) done =
      (done ++ ·) <$>
        commaList close context (fun list => item >>= fun value => pure (list ++ [value])) [] := by
  have hList : commaList close context (fun list => item >>= fun value => pure (list ++ [value]))
      (done ++ []) = (done ++ ·) <$>
        commaList close context (fun list => item >>= fun value => pure (list ++ [value])) [] :=
    commaList_map (done ++ ·) (fun list => by simp) close context []
  rwa [List.append_nil] at hList

end Parser

namespace Grammar

open ProtoIdl.Parser

/-! ## Members on their own -/

theorem extensionsRest_eq (ranges : List ExtensionRange) :
    extensionsRest ranges = (ranges ++ ·) <$> extensionsRest [] :=
  commaList_append extensionRange ";" "extensions" ranges

theorem reservedRest_eq (max : Int) (reserved : List Reserved) :
    reservedRest max reserved = (reserved ++ ·) <$> reservedRest max [] :=
  commaList_append (reservedEntry max) ";" "reserved" reserved

theorem oneofMember_append (group : String) (done fields : List Field)
    (head : List String × Token) :
    oneofMember group (done ++ fields) head = (done ++ ·) <$> oneofMember group fields head := by
  unfold oneofMember
  split
  · rfl
  · split
    · rfl
    · rfl
    · rfl
    · rfl
    · simp

theorem oneofRest_eq (fields : List Field) :
    oneofRest fields = (fields ++ ·) <$> oneofRest [] := by
  have hLoop : ∀ group, loop (memberHead "oneof") (oneofMember group) (fields ++ []) =
      (fields ++ ·) <$> loop (memberHead "oneof") (oneofMember group) [] := fun group =>
    loop_map (fields ++ ·) (fun state head => oneofMember_append group fields state head) []
  rw [List.append_nil] at hLoop
  simp only [oneofRest, hLoop, map_bind]

/-- What is read and built into a message may as well be built into an empty one and joined. -/
theorem bind_build_eq (message : Message) (rest : Parser α) (build : Message → α → Message)
    (hBuild : ∀ value, message.join (build (.new "") value) = .ok (build message value)) :
    (rest >>= fun value => pure (build message value)) =
      (rest >>= fun value => pure (build (.new "") value)) >>= fun added =>
        ofExcept (message.join added) := by
  simp only [bind_assoc, pure_bind, hBuild]
  rfl

/-- An option that is set on its own may be joined if it is not set yet. -/
theorem join_bind (message : Message) (key : String) (value : OptionValue) :
    (message.options.bind key value).map (fun options => { message with options := options }) =
      message.join { Message.new "" with options := (∅ : OptionMap).append key value } := by
  have hKeys : ((∅ : OptionMap).append key value).keys = [key] := rfl
  rw [OptionMap.bind, Message.join, hKeys, List.find?_singleton]
  cases message.options.contains key with
  | true => rfl
  | false =>
      cases message
      simp [Message.followedBy, Message.new, OptionMap.followedBy, OptionMap.append, Except.map]
      rfl

/-- A member adds the same to every message. -/
theorem messageMember_eq (message : Message) (head : List String × Token) :
    messageMember message head =
      messageMember (.new "") head >>= fun added => ofExcept (message.join added) := by
  have hPart : ∀ added : Message, added.options = ∅ →
      message.join added = .ok (message.followedBy added) :=
    fun _ hOptions => Message.join_of_options_eq_empty message hOptions
  unfold messageMember
  split
  · rw [pure_bind, hPart _ rfl, message.followedBy_new]
    rfl
  · split
    · refine bind_build_eq message enumRest (fun message decl =>
        { message with enums := message.enums ++ [{ decl with comments := head.1 }] }) ?_
      intro decl
      rw [hPart _ rfl]
      simp [Message.followedBy, Message.new, OptionMap.followedBy_empty]
    · rw [extensionsRest_eq, bind_map_left]
      refine bind_build_eq message (extensionsRest []) (fun message ranges =>
        { message with extensions := message.extensions ++ ranges }) ?_
      intro ranges
      rw [hPart _ rfl]
      simp [Message.followedBy, Message.new, OptionMap.followedBy_empty]
    · rw [reservedRest_eq, bind_map_left]
      refine bind_build_eq message (reservedRest maxFieldNumber []) (fun message reserved =>
        { message with reserved := message.reserved ++ reserved }) ?_
      intro reserved
      rw [hPart _ rfl]
      simp [Message.followedBy, Message.new, OptionMap.followedBy_empty]
    · rw [oneofRest_eq, bind_map_left]
      refine bind_build_eq message (oneofRest []) (fun message fields =>
        { message with fields := message.fields ++ fields }) ?_
      intro fields
      rw [hPart _ rfl]
      simp [Message.followedBy, Message.new, OptionMap.followedBy_empty]
    · -- only an option may be refused by the message that it is added to
      simp only [bindOptionRest, bind_assoc]
      congr 1
      funext binding
      have hSingle : (Message.new "").options.bind binding.1 binding.2 =
          .ok ((∅ : OptionMap).append binding.1 binding.2) := rfl
      rw [hSingle]
      show _ = ofExcept (message.join _)
      rw [← join_bind]
      cases message.options.bind binding.1 binding.2 <;> rfl
    · refine bind_build_eq message (fieldRest head.1 head.2) (fun message field =>
        { message with fields := message.fields ++ [field] }) ?_
      intro field
      rw [hPart _ rfl]
      simp [Message.followedBy, Message.new, OptionMap.followedBy_empty]

/-- A member adds the same to every message, be it a block or not. -/
theorem messageStatement_eq (message : Message) (head : List String × Token) :
    messageStatement message head =
      messageStatement (.new "") head >>= fun added => ofExcept (message.join added) := by
  unfold messageStatement
  split
  · exact messageMember_eq message head
  · next kind _ =>
      refine bind_build_eq message (block kind fun name => members (.new name))
        (fun message named => addBlock message kind head.1 named.1 named.2) ?_
      intro named
      cases kind <;>
        · rw [Message.join_of_options_eq_empty message rfl]
          simp [addBlock, Message.followedBy, Message.new, OptionMap.followedBy_empty]

/-! ## All members -/

/-- The members ahead of the cursor, up to `last`: what is read there is joined to what there is
already. -/
def Adds (cursor : Cursor) (added : Message) (last : Cursor) : Prop :=
  ∀ start : Message,
    match start.join added with
    | .ok joined => (members start).run cursor = .ok joined last
    | .error fault => ((members start).run cursor).Fails fault

/-- The members ahead add the same to every message, or they cannot be read after any. -/
theorem adds_or_fails (cursor : Cursor) :
    (∃ added last, Adds cursor added last) ∨
      ∀ start, ∃ fault, ((members start).run cursor).Fails fault := by
  induction cursor using statements_induction with
  | done cursor between hHead =>
      refine .inl ⟨.new "", between, fun start => ?_⟩
      rw [Message.join_of_options_eq_empty start rfl, start.followedBy_new, members_eq_loop]
      exact run_loop_of_none hHead start
  | statement cursor between head hHead ih =>
      have hRun : ∀ start, (members start).run cursor =
          (messageStatement (.new "") head >>= fun member =>
            Parser.ofExcept (start.join member) >>= members).run between := by
        intro start
        have hLoop : members = loop statementHead messageStatement := funext members_eq_loop
        rw [hLoop, run_loop_of_some hHead, messageStatement_eq, bind_assoc]
      cases hMember : (messageStatement (.new "") head).run between with
      | error fault after => exact .inr fun start => ⟨fault, after, by rw [hRun, run_bind, hMember]⟩
      | ok member next =>
          have hNext : ∀ start, (members start).run cursor =
              (Parser.ofExcept (start.join member) >>= members).run next := by
            intro start
            rw [hRun, run_bind, hMember]
          rcases ih next (onward_of_ok hMember) with ⟨added, last, hAdds⟩ | hFails
          · cases hJoin : member.join added with
            | ok joined =>
                -- the first member is joined, and then the others are
                refine .inl ⟨joined, last, fun start => ?_⟩
                rw [← Message.join_assoc hJoin, hNext]
                cases start.join member with
                | error fault => exact ⟨next, rfl⟩
                | ok grown => exact hAdds grown
            | error fault =>
                -- the first member and the others set an option, whatever was there before
                refine .inr fun start => ?_
                rw [hNext]
                cases hStart : start.join member with
                | error other => exact ⟨other, next, rfl⟩
                | ok grown =>
                    obtain ⟨other, hOther⟩ := Message.exists_error_of_join hJoin hStart
                    have hGrown := hAdds grown
                    rw [hOther] at hGrown
                    exact ⟨other, hGrown⟩
          · refine .inr fun start => ?_
            rw [hNext]
            cases start.join member with
            | error other => exact ⟨other, next, rfl⟩
            | ok grown => exact hFails grown

/-- Members that can be read into an empty message add what they come to there. -/
theorem adds_of_run_members {name : String} {added : Message} {cursor last : Cursor}
    (hRun : (members (.new name)).run cursor = .ok added last) : Adds cursor added last := by
  rcases adds_or_fails cursor with ⟨alone, stop, hAdds⟩ | hFails
  · have hNew := hAdds (.new name)
    rw [Message.new_join, hRun] at hNew
    cases hNew
    intro start
    rw [start.join_new_followedBy]
    exact hAdds start
  · obtain ⟨fault, stop, hNone⟩ := hFails (.new name)
    rw [hRun] at hNone
    cases hNone

end Grammar
end ProtoIdl
