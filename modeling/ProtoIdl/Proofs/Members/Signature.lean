import ProtoIdl.Grammar.Service
import ProtoIdl.Proofs.Members.Loop
import ProtoIdl.Proofs.RoundTrip.Field

/-!
# How the signature of a method is written

The words `stream`, `repeated` and `map` announce a shape by their place.  A parameter may have
a name, which the next token tells, and there may be comments before a parameter, before its
name and after it.  However the signature is written, its parser answers the parameters that it
lists, in order (`gives_rpcRest`).
-/

namespace ProtoIdl
namespace Grammar

open ProtoIdl.Parser

variable {levels : Nat} {stream repeated : Bool} {type : FieldType} {argument : RpcArgument}
  {parameters : List (Bool × RpcArgument)} {tokens rest later : List Token}

/-! ## Types -/

/-- The mark in front of a side that is a stream. -/
def streamMark (stream : Bool) : List Token :=
  if stream then [Keyword.stream.text] else []

/-- How the type of a parameter or of a result is written after its mark.  A type that stands
alone is not one of the words that announce a shape. -/
inductive WrittenType (stream : Bool) : FieldType → Bool → List Token → Prop
  | plain {name : Token} (hName : IsWord name) (hMap : name ≠ Keyword.map.text)
      (hRepeated : name ≠ Keyword.repeated.text)
      (hStream : stream = false → name ≠ Keyword.stream.text) :
      WrittenType stream (.ofName name) false [name]
  | repeated {name : Token} (hName : IsWord name) :
      WrittenType stream (.ofName name) true [Keyword.repeated.text, name]
  | map {key value : Token} (hKey : IsWord key) (hValue : IsWord value) :
      WrittenType stream (.map key value) false
        [Keyword.map.text, "<", key, ",", value, ">"]

/-- A type begins with a word, which is `stream` only after the mark. -/
theorem WrittenType.exists_word (hType : WrittenType stream type repeated tokens) :
    ∃ first tail, tokens = first :: tail ∧ IsWord first ∧
      (stream = false → first ≠ Keyword.stream.text) := by
  cases hType with
  | @plain name hName _ _ hStream => exact ⟨name, [], rfl, hName, hStream⟩
  | @repeated name _ => exact ⟨_, [name], rfl, by decide, fun _ => by decide⟩
  | map _ _ => exact ⟨_, _, rfl, by decide, fun _ => by decide⟩

theorem WrittenType.reads (hType : WrittenType stream type repeated tokens) (context : String) :
    (rpcType context).Reads levels (tokens ++ rest) (type, repeated) rest := by
  cases hType with
  | plain hName hMap hRepeated _ =>
      refine .bind (reads_eat_other (by simpa using hMap)) ?_
      exact .bind (reads_eat_other (by simpa using hRepeated))
        (.bind (reads_word hName _ _) (.pure _))
  | repeated hName =>
      refine .bind (reads_eat_other (by simp; decide)) ?_
      exact .bind (reads_eat _) (.bind (reads_word hName _ _) (.pure _))
  | map hKey hValue => exact .bind (reads_eat _) (.bind (reads_mapTypeRest hKey hValue) (.pure _))

/-- The mark of a stream is taken in front of a type, and nothing where there is none. -/
theorem WrittenType.reads_mark (hType : WrittenType stream type repeated tokens) :
    (eat Keyword.stream.text).Reads levels (streamMark stream ++ (tokens ++ rest)) stream
      (tokens ++ rest) := by
  cases stream with
  | true => exact reads_eat _
  | false =>
      obtain ⟨first, tail, rfl, -, hStream⟩ := hType.exists_word
      exact reads_eat_other (by simpa [streamMark] using hStream rfl)

/-! ## Parameters -/

/-- How a parameter is written, without the comments before it: the mark of a stream, the type,
and a name if it has one, with comments before the name and at the end. -/
inductive WrittenParameter (stream : Bool) : RpcArgument → List Token → Prop
  | intro {type : FieldType} {repeated : Bool} {name : Option String}
      {typeTokens between after : List Token} (hType : WrittenType stream type repeated typeTokens)
      (hName : ∀ word, name = some word → IsWord word)
      (hBetween : ∀ token ∈ between, token.isComment = true)
      (hAfter : ∀ token ∈ after, token.isComment = true) :
      WrittenParameter stream ⟨name, type, repeated⟩
        (streamMark stream ++ (typeTokens ++ (between ++ (name.toList ++ after))))

/-- A parameter begins with a word. -/
theorem WrittenParameter.exists_word (hParameter : WrittenParameter stream argument tokens) :
    ∃ first tail, tokens = first :: tail ∧ IsWord first := by
  cases hParameter with
  | intro hType _ _ _ =>
      cases stream with
      | true => exact ⟨_, _, rfl, by decide⟩
      | false =>
          obtain ⟨first, tail, rfl, hWord, -⟩ := hType.exists_word
          exact ⟨first, _, rfl, hWord⟩

/-- A word in the place of a name is the name. -/
theorem reads_parameterName_some {word : Token} (hWord : IsWord word) :
    parameterName.Reads levels (word :: rest) (some word) rest := by
  have hGoesOn : ¬((word :: rest).head? = some "," ∨ (word :: rest).head? = some ")") := by
    simp [hWord.ne (by decide : Token.isPunctuation "," = true),
      hWord.ne (by decide : Token.isPunctuation ")" = true)]
  refine .bind reads_peek ?_
  rw [if_neg hGoesOn]
  exact .bind (reads_word hWord _ _) (.pure _)

/-- Where the list goes on or ends, there is no name. -/
theorem reads_parameterName_none (hRest : CommaFirst ")" rest) :
    parameterName.Reads levels rest none rest := by
  obtain ⟨token, tail, rfl, hToken⟩ := hRest
  have hEnds : (token :: tail).head? = some "," ∨ (token :: tail).head? = some ")" := by
    simpa using hToken
  refine .bind reads_peek ?_
  rw [if_pos hEnds]
  exact .pure _

/-- No comment stands where a list goes on or ends. -/
theorem not_comment_of_commaFirst (hRest : CommaFirst ")" rest) :
    ∀ token, rest.head? = some token → token.isComment = false := by
  obtain ⟨token, tail, rfl, hToken⟩ := hRest
  rintro other ⟨⟩
  rcases hToken with rfl | rfl <;> decide

/-- A parameter is read with the comments before it and added to those read so far. -/
theorem WrittenParameter.reads (hParameter : WrittenParameter stream argument tokens)
    {comments : List Token} (hComments : ∀ token ∈ comments, token.isComment = true)
    (hRest : CommaFirst ")" rest) (inputs : RpcInputs) :
    (rpcParameter inputs).Reads levels (comments ++ (tokens ++ rest))
      ⟨inputs.streaming || stream, inputs.arguments ++ [argument]⟩ rest := by
  obtain ⟨first, tail, hTokens, hWord⟩ := hParameter.exists_word
  have hStart : takeComments.Reads levels (comments ++ (tokens ++ rest))
      (comments.map Token.commentBody) (tokens ++ rest) := by
    rw [hTokens]
    exact reads_commentsBefore hComments hWord.not_comment
  have hStop := not_comment_of_commaFirst hRest
  refine .bind hStart ?_
  cases hParameter with
  | @intro type repeated name typeTokens between after hType hName hBetween hAfter =>
      cases name with
      | none =>
          -- without a name the first run of comments takes the second, too
          have hAll : ∀ token ∈ between ++ after, token.isComment = true :=
            fun token hToken => (List.mem_append.mp hToken).elim (hBetween token) (hAfter token)
          have hShape : streamMark stream ++ (typeTokens ++ (between ++ ([] ++ after))) ++ rest =
              streamMark stream ++ (typeTokens ++ ((between ++ after) ++ rest)) := by simp
          rw [Option.toList_none, hShape]
          refine .bind hType.reads_mark ?_
          refine .bind (hType.reads _) ?_
          refine .bind (reads_takeComments _ hAll hStop) ?_
          refine .bind (reads_parameterName_none hRest) ?_
          refine .bind (reads_takeComments [] (List.forall_mem_nil _) hStop) ?_
          exact .pure _
      | some word =>
          have hShape :
              streamMark stream ++ (typeTokens ++ (between ++ ([word] ++ after))) ++ rest =
                streamMark stream ++ (typeTokens ++ (between ++ word :: (after ++ rest))) := by simp
          rw [Option.toList_some, hShape]
          refine .bind hType.reads_mark ?_
          refine .bind (hType.reads _) ?_
          refine .bind (reads_commentsBefore hBetween (hName word rfl).not_comment) ?_
          refine .bind (reads_parameterName_some (hName word rfl)) ?_
          refine .bind (reads_takeComments after hAfter hStop) ?_
          exact .pure _

/-- How the parameters of a method are written after the opening parenthesis, with the closing
one, each with its mark.  There may be comments before a parameter, also where there is none. -/
inductive WrittenInputs : List (Bool × RpcArgument) → List Token → Prop
  | none {comments : List Token} (hComments : ∀ token ∈ comments, token.isComment = true) :
      WrittenInputs [] (comments ++ [")"])
  | last {stream : Bool} {argument : RpcArgument} {comments tokens : List Token}
      (hComments : ∀ token ∈ comments, token.isComment = true)
      (hParameter : WrittenParameter stream argument tokens) :
      WrittenInputs [(stream, argument)] (comments ++ (tokens ++ [")"]))
  | more {stream : Bool} {argument : RpcArgument} {next : Bool × RpcArgument}
      {parameters : List (Bool × RpcArgument)} {comments tokens rest : List Token}
      (hComments : ∀ token ∈ comments, token.isComment = true)
      (hParameter : WrittenParameter stream argument tokens)
      (hRest : WrittenInputs (next :: parameters) rest) :
      WrittenInputs ((stream, argument) :: next :: parameters)
        (comments ++ (tokens ++ "," :: rest))

/-- The comments in front of the first parameter do not matter. -/
theorem WrittenInputs.exists_uncommented (hInputs : WrittenInputs parameters tokens)
    (hSome : parameters ≠ []) :
    ∃ (comments : List Token) (first : Token) (tail : List Token),
      tokens = comments ++ first :: tail ∧ (∀ token ∈ comments, token.isComment = true) ∧
        IsWord first ∧ WrittenInputs parameters (first :: tail) := by
  have hNone : ∀ token ∈ [], Token.isComment token = true := List.forall_mem_nil _
  cases hInputs with
  | none _ => exact absurd rfl hSome
  | @last _ _ comments _ hComments hParameter =>
      obtain ⟨first, tail, rfl, hWord⟩ := hParameter.exists_word
      exact ⟨comments, first, tail ++ [")"], rfl, hComments, hWord, .last hNone hParameter⟩
  | @more _ _ _ _ comments _ rest hComments hParameter hRest =>
      obtain ⟨first, tail, rfl, hWord⟩ := hParameter.exists_word
      exact ⟨comments, first, tail ++ "," :: rest, rfl, hComments, hWord,
        .more hNone hParameter hRest⟩

/-- Parameters are read one after the other and added to those read so far. -/
theorem WrittenInputs.reads_list (hInputs : WrittenInputs parameters tokens)
    (hSome : parameters ≠ []) (inputs : RpcInputs) (rest : List Token) :
    (commaList ")" "rpc parameters" rpcParameter inputs).Reads levels (tokens ++ rest)
      ⟨inputs.streaming || parameters.any Prod.fst, inputs.arguments ++ parameters.map Prod.snd⟩
      rest := by
  induction hInputs generalizing inputs with
  | none _ => exact absurd rfl hSome
  | @last stream argument comments tokens hComments hParameter =>
      have hShape : comments ++ (tokens ++ [")"]) ++ rest =
          comments ++ (tokens ++ ")" :: rest) := by simp
      rw [hShape, List.any_cons, List.any_nil, Bool.or_false]
      exact .bind (hParameter.reads hComments ⟨")", rest, rfl, .inr rfl⟩ inputs)
        (reads_loop_done (reads_commaHead_done (by decide) _))
  | @more stream argument next parameters comments tokens others hComments hParameter _ ih =>
      have hShape : comments ++ (tokens ++ "," :: others) ++ rest =
          comments ++ (tokens ++ "," :: (others ++ rest)) := by simp
      have hMore := ih (List.cons_ne_nil _ _)
        ⟨inputs.streaming || stream, inputs.arguments ++ [argument]⟩
      rw [Bool.or_assoc, List.append_assoc] at hMore
      rw [hShape]
      refine .bind (hParameter.reads hComments ⟨",", _, rfl, .inl rfl⟩ inputs) ?_
      rw [loop_eq]
      exact .bind (reads_commaHead _ _) hMore

/-- The parameters of a method are read as they are listed. -/
theorem WrittenInputs.reads (hInputs : WrittenInputs parameters tokens) (rest : List Token) :
    rpcParameters.Reads levels (tokens ++ rest)
      ⟨parameters.any Prod.fst, parameters.map Prod.snd⟩ rest := by
  by_cases hSome : parameters = []
  · subst hSome
    cases hInputs with
    | @none comments hComments =>
        rw [List.append_assoc]
        exact .bind (reads_commentsBefore hComments (by decide)) (.bind (reads_eat _) (.pure _))
  · obtain ⟨comments, first, tail, rfl, hComments, hWord, hFirst⟩ :=
      hInputs.exists_uncommented hSome
    have hOther : (first :: (tail ++ rest)).head? ≠ some ")" := by
      simpa using hWord.ne (by decide)
    have hList : (commaList ")" "rpc parameters" rpcParameter ⟨false, []⟩).Reads levels
        (first :: (tail ++ rest)) ⟨parameters.any Prod.fst, parameters.map Prod.snd⟩ rest :=
      hFirst.reads_list hSome ⟨false, []⟩ rest
    rw [List.append_assoc]
    exact .bind (reads_commentsBefore hComments hWord.not_comment)
      (.bind (reads_eat_other hOther) hList)

/-! ## Signatures -/

/-- What follows the keyword of a method: its name, its parameters, its result and its end. -/
def methodTokens (name : Token) (inputTokens : List Token) (stream : Bool)
    (typeTokens ending : List Token) : List Token :=
  name :: "(" :: (inputTokens ++ Keyword.returns.text :: "(" ::
    (streamMark stream ++ (typeTokens ++ ")" :: ending)))

/-- A method is read with the parameters that it lists, and its end decides over its options. -/
theorem gives_rpcRest {name : Token} {inputTokens typeTokens ending : List Token}
    {options : Except ParseError OptionMap} (hName : IsWord name)
    (hInputs : WrittenInputs parameters inputTokens)
    (hOutput : WrittenType stream type repeated typeTokens)
    (hEnd : rpcEnd.Gives levels ending options later) (bodies : List String) :
    (rpcRest bodies).Gives levels (methodTokens name inputTokens stream typeTokens ending)
      (options >>= fun options => .ok ⟨name, parameters.map Prod.snd, ⟨none, type, repeated⟩,
        parameters.any Prod.fst, stream, options, bodies⟩) later := by
  refine .bind_reads (reads_word hName _ _) ?_
  refine .bind_reads (reads_expect "(" _) ?_
  refine .bind_reads (hInputs.reads _) ?_
  refine .bind_reads (reads_expect _ _) ?_
  refine .bind_reads (reads_expect "(" _) ?_
  refine .bind_reads hOutput.reads_mark ?_
  refine .bind_reads (hOutput.reads _) ?_
  refine .bind_reads (reads_expect ")" _) ?_
  exact hEnd.map _

end Grammar
end ProtoIdl
