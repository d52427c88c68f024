import ProtoIdl.Schema.Basic
import ProtoIdl.Token

/-!
# Trees and tokens without comments

`withoutComments` empties every list of comments in a tree, at any depth, and changes
nothing else; on tokens it drops the comments.  `CommentAsValue` is the one place in a
list of tokens where a comment is not passed over: right after an equals sign.
-/

namespace ProtoIdl

/-! ## Trees -/

/-- An enum value without its comments. -/
def EnumValue.withoutComments (value : EnumValue) : EnumValue :=
  { value with comments := [] }

/-- An enum without comments. -/
def EnumDecl.withoutComments (decl : EnumDecl) : EnumDecl :=
  { decl with values := decl.values.map EnumValue.withoutComments, comments := [] }

/-- A field without its comments. -/
def Field.withoutComments (field : Field) : Field :=
  { field with comments := [] }

/-- A method without its comments. -/
def RpcMethod.withoutComments (method : RpcMethod) : RpcMethod :=
  { method with comments := [] }

/-- A service without comments. -/
def Service.withoutComments (service : Service) : Service :=
  { service with methods := service.methods.map RpcMethod.withoutComments, comments := [] }

mutual

/-- A message without comments, at any depth. -/
def Message.withoutComments : Message → Message
  | ⟨name, messages, enums, fields, extendBlocks, extensions, reserved, options, _⟩ =>
      ⟨name, Message.levelWithoutComments messages, enums.map EnumDecl.withoutComments,
        fields.map Field.withoutComments, ExtendBlock.levelWithoutComments extendBlocks,
        extensions, reserved, options, []⟩

/-- An `extend` block without comments, at any depth. -/
def ExtendBlock.withoutComments : ExtendBlock → ExtendBlock
  | ⟨target, body⟩ => ⟨target, body.withoutComments⟩

/-- Messages without comments. -/
def Message.levelWithoutComments : List Message → List Message
  | [] => []
  | message :: rest => message.withoutComments :: Message.levelWithoutComments rest

/-- Blocks without comments. -/
def ExtendBlock.levelWithoutComments : List ExtendBlock → List ExtendBlock
  | [] => []
  | block :: rest => block.withoutComments :: ExtendBlock.levelWithoutComments rest

end

theorem Message.levelWithoutComments_eq (messages : List Message) :
    Message.levelWithoutComments messages = messages.map Message.withoutComments := by
  induction messages with
  | nil => rfl
  | cons message rest ih => rw [levelWithoutComments, ih, List.map_cons]

theorem ExtendBlock.levelWithoutComments_eq (blocks : List ExtendBlock) :
    ExtendBlock.levelWithoutComments blocks = blocks.map ExtendBlock.withoutComments := by
  induction blocks with
  | nil => rfl
  | cons block rest ih => rw [levelWithoutComments, ih, List.map_cons]

/-- The parts of a message lose their comments one by one. -/
theorem Message.withoutComments_eq (message : Message) :
    message.withoutComments =
      ⟨message.name, message.messages.map Message.withoutComments,
        message.enums.map EnumDecl.withoutComments, message.fields.map Field.withoutComments,
        message.extendBlocks.map ExtendBlock.withoutComments, message.extensions,
        message.reserved, message.options, []⟩ := by
  cases message
  rw [withoutComments, levelWithoutComments_eq, ExtendBlock.levelWithoutComments_eq]

theorem ExtendBlock.withoutComments_eq (block : ExtendBlock) :
    block.withoutComments = ⟨block.target, block.body.withoutComments⟩ := by
  cases block
  rfl

/-- A schema without comments. -/
def Schema.withoutComments (schema : Schema) : Schema :=
  { schema with
    messages := schema.messages.map Message.withoutComments
    enums := schema.enums.map EnumDecl.withoutComments
    services := schema.services.map Service.withoutComments
    extendBlocks := schema.extendBlocks.map ExtendBlock.withoutComments
    comments := [] }

/-! ## Tokens -/

namespace Token

/-- The tokens that are not comments. -/
def withoutComments (tokens : List Token) : List Token :=
  tokens.filter fun token => !token.isComment

/-- A comment stands right after an equals sign. -/
def CommentAsValue (tokens : List Token) : Prop :=
  ∃ (before : List Token) (comment : Token) (after : List Token),
    tokens = before ++ "=" :: comment :: after ∧ comment.isComment = true

variable {token : Token} {tokens first second : List Token}

/-- A comment is none of the other tokens. -/
theorem ne_of_comment {comment : Token} (hComment : comment.isComment = true)
    (hToken : token.isComment = false) : comment ≠ token := by
  rintro rfl
  rw [hComment] at hToken
  cases hToken

@[simp] theorem withoutComments_nil : withoutComments [] = [] := rfl

theorem withoutComments_cons (hToken : token.isComment = false) :
    withoutComments (token :: tokens) = token :: withoutComments tokens := by
  simp [withoutComments, hToken]

theorem withoutComments_cons_of_comment (hToken : token.isComment = true) :
    withoutComments (token :: tokens) = withoutComments tokens := by
  simp [withoutComments, hToken]

theorem withoutComments_append (first second : List Token) :
    withoutComments (first ++ second) = withoutComments first ++ withoutComments second := by
  simp [withoutComments]

/-- The first token is left if it is not a comment. -/
theorem head?_withoutComments (hHead : tokens.head? = some token)
    (hToken : token.isComment = false) : (withoutComments tokens).head? = some token := by
  obtain ⟨rest, rfl⟩ := List.head?_eq_some_iff.mp hHead
  rw [withoutComments_cons hToken, List.head?_cons]

/-- A run of comments leaves nothing. -/
theorem withoutComments_of_comments (hTokens : ∀ token ∈ tokens, token.isComment = true) :
    withoutComments tokens = [] := by
  rw [withoutComments, List.filter_eq_nil_iff]
  intro token hMem
  simp [hTokens token hMem]

/-- Where no comment is left there is none to drop. -/
theorem not_comment_of_mem (hMem : token ∈ withoutComments tokens) :
    token.isComment = false := by
  simpa using (List.mem_filter.mp hMem).2

/-- What is left of the tokens after a run of comments. -/
theorem withoutComments_dropWhile (tokens : List Token) :
    withoutComments (tokens.dropWhile isComment) = withoutComments tokens := by
  induction tokens with
  | nil => rfl
  | cons token rest ih =>
      cases hToken : token.isComment with
      | true =>
          rw [List.dropWhile_cons_of_pos hToken, ih, withoutComments_cons_of_comment hToken]
      | false => rw [List.dropWhile_cons_of_neg (by simp [hToken])]

/-- The first token that is left, with what comes before it. -/
theorem exists_of_withoutComments_eq_cons {rest : List Token}
    (hTokens : withoutComments tokens = token :: rest) :
    ∃ comments later, tokens = comments ++ token :: later ∧
      (∀ other ∈ comments, other.isComment = true) ∧ token.isComment = false ∧
        withoutComments later = rest := by
  induction tokens with
  | nil => cases hTokens
  | cons first tail ih =>
      by_cases hFirst : first.isComment = true
      · rw [withoutComments_cons_of_comment hFirst] at hTokens
        obtain ⟨comments, later, rfl, hComments, hRest⟩ := ih hTokens
        refine ⟨first :: comments, later, rfl, ?_, hRest⟩
        intro other hMem
        rcases List.mem_cons.mp hMem with rfl | hMem
        · exact hFirst
        · exact hComments other hMem
      · have hFirst : first.isComment = false := by simpa using hFirst
        rw [withoutComments_cons hFirst] at hTokens
        cases hTokens
        exact ⟨[], tail, rfl, by simp, hFirst, rfl⟩

/-! ## Comments behind a cursor -/

/-- Among tokens that have been passed, the latest first, a comment stands right after an
equals sign. -/
def PassedValue : List Token → Prop
  | [] => False
  | token :: earlier =>
      (token.isComment = true ∧ earlier.head? = some "=") ∨ PassedValue earlier

/-- Of two stretches, one behind the other, one has such a comment if both together do,
unless the earlier one ends with an equals sign. -/
theorem passedValue_append (hSettled : second.head? ≠ some "=") :
    PassedValue (first ++ second) ↔ PassedValue first ∨ PassedValue second := by
  induction first with
  | nil => simp [PassedValue]
  | cons token earlier ih =>
      rw [List.cons_append, PassedValue, PassedValue, ih]
      cases earlier with
      | nil => simp [hSettled]
      | cons other earlier => simp [or_assoc]

/-- What has been passed stays passed. -/
theorem passedValue_of_append (hPassed : PassedValue second) :
    PassedValue (first ++ second) := by
  induction first with
  | nil => exact hPassed
  | cons token earlier ih => exact .inr ih

/-- No comment of a run of comments comes right after an equals sign. -/
theorem not_passedValue_of_comments (hTokens : ∀ token ∈ tokens, token.isComment = true) :
    ¬PassedValue tokens := by
  induction tokens with
  | nil => exact fun hPassed => hPassed
  | cons token earlier ih =>
      rintro (⟨_, hEquals⟩ | hEarlier)
      · have hMem := List.mem_of_mem_head? hEquals
        exact ne_of_comment (hTokens "=" (by simp [hMem])) (by decide) rfl
      · exact ih (fun other hMem => hTokens other (by simp [hMem])) hEarlier

/-- Once a whole list has been passed, both descriptions say the same. -/
theorem passedValue_reverse (tokens : List Token) :
    PassedValue tokens.reverse ↔ CommentAsValue tokens := by
  constructor
  · intro hPassed
    suffices hSeen : ∀ seen, PassedValue seen → CommentAsValue seen.reverse by
      simpa using hSeen tokens.reverse hPassed
    intro seen
    induction seen with
    | nil => exact fun hPassed => hPassed.elim
    | cons token earlier ih =>
        rintro (⟨hComment, hEquals⟩ | hEarlier)
        · obtain ⟨older, rfl⟩ := List.head?_eq_some_iff.mp hEquals
          exact ⟨older.reverse, token, [], by simp, hComment⟩
        · obtain ⟨before, comment, after, hSplit, hComment⟩ := ih hEarlier
          exact ⟨before, comment, after ++ [token], by simp [hSplit], hComment⟩
  · rintro ⟨before, comment, after, rfl, hComment⟩
    have hSplit : (before ++ "=" :: comment :: after).reverse =
        after.reverse ++ (comment :: "=" :: before.reverse) := by simp
    rw [hSplit]
    exact passedValue_of_append (.inl ⟨hComment, rfl⟩)

end Token
end ProtoIdl
