import ProtoIdl.Grammar.Enum
import ProtoIdl.Grammar.Field
import ProtoIdl.Schema.Message

/-!
# Messages and `extend` blocks

The body of a message is isolated by its braces before it is read, so a member never
reaches past the end of its message.  Bodies nest, and `members` calls itself on the
inside of a nested body and on what follows it; both are shorter than what was ahead.
-/

namespace ProtoIdl
namespace Grammar

open ProtoIdl.Parser

/-! ## Blocks -/

/-- The members with a body like that of a message. -/
inductive BlockKind where
  | message
  | extend
  deriving DecidableEq, Repr

namespace BlockKind

/-- The kind of block that a keyword announces. -/
def ofToken? (token : Token) : Option BlockKind :=
  match Keyword.ofToken? token with
  | some .message => some message
  | some .extend => some extend
  | _ => none

/-- The wording of the name that follows the keyword. -/
def nameNoun : BlockKind → String
  | message => "message name"
  | extend => "extend target"

/-- The wording of the construct. -/
def noun : BlockKind → String
  | message => "message"
  | extend => "extend"

end BlockKind

/-- Read what follows the keyword of a block: its name, and its body, one level down. -/
def block (kind : BlockKind) (body : String → Parser α) : Parser (String × α) := do
  let name ← word kind.nameNoun kind.noun
  expect Token.openBrace "message"
  let inner ← inside "message" (body name)
  return (name, inner)

/-- Read what follows the keyword of a block: its name, and a cursor over the inside
of its body, one level down. -/
def blockRest (kind : BlockKind) : Parser (String × Cursor) := do
  let name ← word kind.nameNoun kind.noun
  expect Token.openBrace "message"
  let block ← takeBlock "message"
  let inside ← ofExcept block.enter
  return (name, inside)

/-- A block is read by isolating its body and reading that. -/
theorem run_block (kind : BlockKind) (body : String → Parser α) (cursor : Cursor) :
    (block kind body).run cursor =
      match (blockRest kind).run cursor with
      | .error fault after => .error fault after
      | .ok (name, entered) after =>
          match (body name).run entered with
          | .error fault _ => .error fault after
          | .ok inner _ => .ok (name, inner) after := by
  simp only [block, blockRest, run_bind]
  cases (word kind.nameNoun kind.noun).run cursor with
  | error fault after => rfl
  | ok name afterName =>
      cases hBrace : (expect Token.openBrace "message").run afterName with
      | error fault after => simp [hBrace]
      | ok _ afterBrace =>
          simp only [hBrace, inside]
          cases (takeBlock "message").run afterBrace with
          | error fault after => rfl
          | ok taken after =>
              simp only
              cases taken.enter with
              | error fault => rfl
              | ok entered =>
                  simp only [Parser.ofExcept, run_pure]
                  cases (body name).run entered <;> rfl

/-- The inside of a block is shorter than what was ahead of it. -/
theorem left_lt_of_blockRest {kind : BlockKind} {cursor block after : Cursor} {name : String}
    (hRun : (blockRest kind).run cursor = .ok (name, block) after) :
    block.left < cursor.left := by
  obtain ⟨_, afterName, hName, hRun⟩ := run_bind_eq_ok_iff.mp hRun
  obtain ⟨_, afterBrace, hBrace, hRun⟩ := run_bind_eq_ok_iff.mp hRun
  obtain ⟨inside, afterBlock, hBlock, hRun⟩ := run_bind_eq_ok_iff.mp hRun
  obtain ⟨entered, _, hEnter, hRun⟩ := run_bind_eq_ok_iff.mp hRun
  cases hRun
  have hInside := left_le_of_enter hEnter
  have hAhead := ((onward_of_ok hName).trans (onward_of_ok hBrace)).left_le
  have hShorter := left_lt_of_takeBlock hBlock
  omega

/-! ## Members -/

/-- Read a member of a message other than a block; the comments and the first token
have been taken.  A word without a role of its own starts a field. -/
def messageMember (message : Message) (head : List String × Token) : Parser Message :=
  if head.2 = ";" then pure message
  else
    match Keyword.ofToken? head.2 with
    | some .enum => do
        let decl ← enumRest
        return { message with enums := message.enums ++ [{ decl with comments := head.1 }] }
    | some .extensions => do
        let ranges ← extensionsRest message.extensions
        return { message with extensions := ranges }
    | some .reserved => do
        let reserved ← reservedRest maxFieldNumber message.reserved
        return { message with reserved := reserved }
    | some .oneof => do
        let fields ← oneofRest message.fields
        return { message with fields := fields }
    | some .option => do
        let options ← bindOptionRest message.options
        return { message with options := options }
    | _ => do
        let field ← fieldRest head.1 head.2
        return { message with fields := message.fields ++ [field] }

/-- Add a block to the message around it.  Comments before an `extend` block are
dropped. -/
def addBlock (message : Message) (kind : BlockKind) (comments : List String) (name : String)
    (inner : Message) : Message :=
  match kind with
  | .message =>
      { message with messages := message.messages ++ [{ inner with comments := comments }] }
  | .extend =>
      { message with extendBlocks := message.extendBlocks ++ [⟨name, inner⟩] }

/-- Read the members that are left inside a body, up to its end.  The answer comes with
the proof that the cursor has moved on, which the members after a block need. -/
def membersFrom (cursor : Cursor) (message : Message) :
    { reply : Reply Message // cursor.Onward reply.cursor } :=
  match hHead : statementHead.run cursor with
  | .error fault after =>
      ⟨.error fault after, by
        have hOnward := statementHead.onward cursor
        rwa [hHead] at hOnward⟩
  | .ok none after => ⟨.ok message after, onward_of_ok hHead⟩
  | .ok (some head) between =>
      match BlockKind.ofToken? head.2 with
      | none =>
          match hMember : (messageMember message head).run between with
          | .error fault after =>
              ⟨.error fault after, (onward_of_ok hHead).trans (by
                have hOnward := (messageMember message head).onward between
                rwa [hMember] at hOnward)⟩
          | .ok grown after =>
              let later := membersFrom after grown
              ⟨later.val,
                ((onward_of_ok hHead).trans (onward_of_ok hMember)).trans later.property⟩
      | some kind =>
          match hBlock : (blockRest kind).run between with
          | .error fault after =>
              ⟨.error fault after, (onward_of_ok hHead).trans (by
                have hOnward := (blockRest kind).onward between
                rwa [hBlock] at hOnward)⟩
          | .ok (name, entered) after =>
              have hAfter := (onward_of_ok hHead).trans (onward_of_ok hBlock)
              match (membersFrom entered (.new name)).val with
              | .error fault _ => ⟨.error fault after, hAfter⟩
              | .ok inner _ =>
                  let later := membersFrom after (addBlock message kind head.1 name inner)
                  ⟨later.val, hAfter.trans later.property⟩
termination_by cursor.left
decreasing_by
  all_goals have hTaken := statementHead.progress cursor _ _ hHead rfl
  · exact Nat.lt_of_le_of_lt (onward_of_ok hMember).left_le hTaken
  · exact Nat.lt_trans (left_lt_of_blockRest hBlock) hTaken
  · exact Nat.lt_of_le_of_lt (onward_of_ok hBlock).left_le hTaken

/-- The parser of the members that are left inside a body. -/
def members (message : Message) : Parser Message where
  run cursor := (membersFrom cursor message).val
  onward cursor := (membersFrom cursor message).property

/-- One round of reading members: the head of a member, and then the member and the
others. -/
theorem members_eq (message : Message) :
    members message =
      (statementHead.toParser >>= fun found =>
        match found with
        | none => pure message
        | some head =>
            match BlockKind.ofToken? head.2 with
            | none => messageMember message head >>= members
            | some kind =>
                block kind (fun name => members (.new name)) >>= fun named =>
                  members (addBlock message kind head.1 named.1 named.2)) := by
  ext cursor
  rw [run_bind]
  simp only [members]
  rw [membersFrom]
  split
  · next hHead => simp [hHead]
  · next hHead => simp [hHead]
  · next head between hHead =>
      simp only [hHead]
      split
      · next hKind =>
          simp only [run_bind]
          split
          · next hMember => simp [hMember]
          · next hMember => simp [hMember, members]
      · next kind hKind =>
          simp only [run_bind, run_block]
          split
          · next hBlock => simp [hBlock]
          · next name entered after hBlock =>
              simp only [hBlock]
              split
              · next hInner => simp [hInner]
              · next hInner => simp [hInner]

/-- Read what follows the keyword of a message. -/
def messageRest : Parser Message := do
  let named ← block .message fun name => members (.new name)
  return named.2

/-- Read what follows the keyword of an `extend` block. -/
def extendRest : Parser ExtendBlock := do
  let named ← block .extend fun target => members (.new target)
  return ⟨named.1, named.2⟩

/-- Read a message. -/
def message : Parser Message := do
  expect Keyword.message.text "message"
  messageRest

end Grammar
end ProtoIdl
