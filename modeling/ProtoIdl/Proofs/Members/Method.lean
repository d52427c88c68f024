import ProtoIdl.Proofs.Members.Alone
import ProtoIdl.Proofs.Members.Fold
import ProtoIdl.Proofs.Members.Signature

/-!
# How methods are written

A method ends with a semicolon or with a body of options.  The options of the body are bound one
after the other, and where two have one name the method fails (`WrittenMethod.gives`).
-/

namespace ProtoIdl

namespace RpcMethod

variable {method : RpcMethod}

/-- Bind the options of a method one after the other. -/
def bindOptions (method : RpcMethod) : Except ParseError RpcMethod := do
  let options ← OptionMap.bindAll method.options.entries
  .ok { method with options := options }

/-- A method with options of different names is left as it is. -/
theorem bindOptions_of_nodup (hKeys : method.options.keys.Nodup) :
    method.bindOptions = .ok method := by
  rw [bindOptions, OptionMap.bindAll_of_nodup hKeys]
  rfl

/-- The first option of a method that repeats a name is refused. -/
theorem bindOptions_of_repeatsFirst {key : String}
    (hKey : RepeatsFirst key method.options.keys) :
    method.bindOptions = .error (.duplicate .option key) := by
  rw [bindOptions, OptionMap.bindAll_of_repeatsFirst hKey]
  rfl

end RpcMethod

namespace Grammar

open ProtoIdl.Parser

variable {levels : Nat} {tokens later : List Token}

/-! ## Endings -/

/-- How a member of the body of a method is written: as an option statement that stands alone, or
as an empty statement. -/
inductive WrittenBinding (levels : Nat) (comments : List Token) :
    Option (String × OptionValue) → List Token → Prop
  | option {binding : String × OptionValue} {tokens : List Token}
      (hAlone : Grammar.option.ReadsAlone levels tokens binding) :
      WrittenBinding levels comments (some binding) tokens
  | empty : WrittenBinding levels comments none [";"]

/-- How a method may end, with the options that it binds: with a semicolon, or with a body. -/
inductive WrittenEnding (levels : Nat) : List (String × OptionValue) → List Token → Prop
  | semicolon : WrittenEnding levels [] [";"]
  | body {parts : List (Option (String × OptionValue))} {tokens closing : List Token}
      (hBody : WrittenMembers (WrittenBinding levels) parts tokens)
      (hClosing : ∀ token ∈ closing, token.isComment = true) :
      WrittenEnding levels (parts.filterMap id)
        (Token.openBrace :: (tokens ++ (closing ++ [Token.closeBrace])))

/-- Bind the option of a member of a body, if it is one. -/
def bindPart (options : OptionMap) : Option (String × OptionValue) → Except ParseError OptionMap
  | some binding => options.bind binding.1 binding.2
  | none => .ok options

theorem foldlM_bindPart (parts : List (Option (String × OptionValue))) :
    parts.foldlM bindPart ∅ = OptionMap.bindAll (parts.filterMap id) := by
  rw [OptionMap.bindAll, List.foldlM_filterMap]
  congr 1
  funext options part
  cases part <;> rfl

/-- The members of the body of a method are read as they are written. -/
theorem givesMembers_rpc (levels : Nat) :
    GivesMembers levels (WrittenBinding levels) bindPart rpcBodyMember where
  item {comments tokens part} hPart := by
    cases hPart with
    | @option binding tokens hAlone =>
        obtain ⟨rest, rfl, hGives⟩ := exists_gives_bindOption hAlone
        exact ⟨_, rest, rfl, by decide, by decide,
          fun options later => ⟨later, .inl rfl, hGives options later⟩⟩
    | empty =>
        exact ⟨";", [], rfl, by decide, by decide,
          fun options later => ⟨later, .inl rfl, Reads.pure options⟩⟩
  empty {comments rest part} hPart := by
    generalize hTokens : ";" :: rest = tokens at hPart
    cases hPart with
    | @option binding tokens hAlone =>
        obtain ⟨rest', rfl, -⟩ := exists_of_option hAlone
        exact absurd (List.cons.inj hTokens).1 (by decide)
    | empty => exact ⟨(List.cons.inj hTokens).2, fun _ => rfl⟩

/-- The end of a method binds the options of its body one after the other.  A body takes a
semicolon that follows it. -/
theorem gives_rpcEnd {bindings : List (String × OptionValue)}
    (hEnding : WrittenEnding levels bindings tokens) (later : List Token) :
    ∃ after, (after = later ∨ later = ";" :: after) ∧
      rpcEnd.Gives levels (tokens ++ later) (OptionMap.bindAll bindings) after := by
  cases hEnding with
  | semicolon => exact ⟨later, .inl rfl, Reads.bind (reads_eat _) (.pure _)⟩
  | @body parts tokens closing hBody hClosing =>
      refine ⟨dropSemicolon later, dropSemicolon_eq_or later, ?_⟩
      have hLoop := gives_members (givesMembers_rpc levels) hBody hClosing "rpc" ∅ later
      have hShape : Token.openBrace :: (tokens ++ (closing ++ [Token.closeBrace])) ++ later =
          Token.openBrace :: (tokens ++ (closing ++ Token.closeBrace :: later)) := by simp
      rw [hShape, ← foldlM_bindPart]
      refine .bind_reads (reads_eat_other (by simp; decide)) ?_
      exact .bind_reads (reads_expect _ _) (hLoop.bind_keeps reads_dropSemicolon)

/-! ## Methods -/

/-- How a method is written after a run of comments.  It is a stream on the side of its parameters
if one of them has the mark.  Its options are those of its body, in order, and no check of their
names is made here. -/
inductive WrittenMethod (levels : Nat) (comments : List Token) : RpcMethod → List Token → Prop
  | intro {keyword name : Token} {parameters : List (Bool × RpcArgument)} {stream repeated : Bool}
      {type : FieldType} {bindings : List (String × OptionValue)}
      {inputTokens typeTokens ending : List Token}
      (hKeyword : keyword = Keyword.rpc.text ∨ keyword = Keyword.function.text)
      (hName : IsWord name) (hInputs : WrittenInputs parameters inputTokens)
      (hOutput : WrittenType stream type repeated typeTokens)
      (hEnding : WrittenEnding levels bindings ending) :
      WrittenMethod levels comments
        ⟨name, parameters.map Prod.snd, ⟨none, type, repeated⟩, parameters.any Prod.fst, stream,
          ⟨bindings⟩, comments.map Token.commentBody⟩
        (keyword :: methodTokens name inputTokens stream typeTokens ending)

/-- After its keyword a method is read, or it fails where its options do. -/
theorem WrittenMethod.gives {comments : List Token} {method : RpcMethod}
    (hMethod : WrittenMethod levels comments method tokens) :
    ∃ keyword rest, tokens = keyword :: rest ∧
      (keyword = Keyword.rpc.text ∨ keyword = Keyword.function.text) ∧
      ∀ later, ∃ after, (after = later ∨ later = ";" :: after) ∧
        (rpcRest (comments.map Token.commentBody)).Gives levels (rest ++ later)
          method.bindOptions after := by
  cases hMethod with
  | @intro keyword name parameters stream repeated type bindings inputTokens typeTokens ending
      hKeyword hName hInputs hOutput hEnding =>
      refine ⟨keyword, _, rfl, hKeyword, fun later => ?_⟩
      obtain ⟨after, hAfter, hEnd⟩ := gives_rpcEnd hEnding later
      have hShape : methodTokens name inputTokens stream typeTokens ending ++ later =
          methodTokens name inputTokens stream typeTokens (ending ++ later) := by
        simp [methodTokens]
      rw [hShape]
      exact ⟨after, hAfter, gives_rpcRest hName hInputs hOutput hEnd _⟩

end Grammar
end ProtoIdl
