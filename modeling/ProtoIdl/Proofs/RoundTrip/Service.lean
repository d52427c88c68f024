import ProtoIdl.Proofs.Members.Signature
import ProtoIdl.Proofs.RoundTrip.Enum
import ProtoIdl.Proofs.RoundTrip.Field

/-!
# Reading back services

The canonical form of a signature is one of those in which it may be written: it has no
comments, and every parameter carries the mark of its side.  A type that stands alone is not one
of the words that announce a shape, so it is read back as it is.
-/

namespace ProtoIdl

/-- The type of an argument, and whether it is repeated. -/
def RpcArgument.typeTokens (argument : RpcArgument) : List Token :=
  (if argument.repeated then [Keyword.repeated.text] else []) ++ argument.type.tokens

theorem RpcArgument.tokens_eq (stream : Bool) (argument : RpcArgument) :
    argument.tokens stream =
      Grammar.streamMark stream ++ (argument.typeTokens ++ argument.name.toList) := by
  rw [tokens, typeTokens, List.append_assoc]
  rfl

namespace Grammar

open ProtoIdl.Parser

variable {levels : Nat} {rest later : List Token}

/-! ## Arguments -/

/-- No built-in type is called like a word that announces a shape. -/
theorem ne_of_scalar {name : String} (hName : name ∈ FieldType.scalarNames) :
    name ≠ Keyword.map.text ∧ name ≠ Keyword.repeated.text ∧ name ≠ Keyword.stream.text := by
  have hAll : ∀ name ∈ FieldType.scalarNames, name ≠ Keyword.map.text ∧
      name ≠ Keyword.repeated.text ∧ name ≠ Keyword.stream.text := by decide
  exact hAll name hName

/-- An argument type that is no map and not repeated is one word, and it announces no other
shape. -/
theorem plain_of_printable {stream : Bool} {argument : RpcArgument} {name : String}
    (hArgument : argument.Printable stream)
    (hType : argument.type = .scalar name ∨ argument.type = .named name) :
    IsWord name ∧ FieldType.ofName name = argument.type ∧ (argument.repeated = false →
      name ≠ Keyword.map.text ∧ name ≠ Keyword.repeated.text ∧
        (stream = false → name ≠ Keyword.stream.text)) := by
  have hPrintable := hArgument.type
  rcases hType with hScalar | hNamed
  · rw [hScalar] at hPrintable ⊢
    obtain ⟨hMap, hRepeated, hStream⟩ := ne_of_scalar hPrintable
    exact ⟨isWord_of_scalar hPrintable, ofName_of_scalar hPrintable,
      fun _ => ⟨hMap, hRepeated, fun _ => hStream⟩⟩
  · have hPlain := hArgument.shape
    rw [hNamed] at hPlain hPrintable ⊢
    exact ⟨hPrintable.1, ofName_of_named hPrintable.2, hPlain⟩

/-- The canonical type of an argument is written in its shape. -/
theorem writtenType_of_printable {stream : Bool} {argument : RpcArgument}
    (hArgument : argument.Printable stream) :
    WrittenType stream argument.type argument.repeated argument.typeTokens := by
  have hWordCase : ∀ name, argument.type = .scalar name ∨ argument.type = .named name →
      argument.type.tokens = [name] →
      WrittenType stream argument.type argument.repeated argument.typeTokens := by
    intro name hType hTokens
    obtain ⟨hWord, hOfName, hPlain⟩ := plain_of_printable hArgument hType
    rw [RpcArgument.typeTokens, hTokens, ← hOfName]
    cases hRepeated : argument.repeated with
    | true => exact .repeated hWord
    | false =>
        obtain ⟨hMap, hOther, hStream⟩ := hPlain hRepeated
        exact .plain hWord hMap hOther hStream
  cases hType : argument.type with
  | map key value =>
      have hPrintable := hArgument.type
      have hRepeated := hArgument.shape
      rw [hType] at hRepeated hPrintable
      rw [RpcArgument.typeTokens, show argument.repeated = false from hRepeated, hType]
      exact .map hPrintable.1 hPrintable.2
  | scalar name =>
      rw [← hType]
      exact hWordCase name (.inl hType) (by rw [hType]; rfl)
  | named name =>
      rw [← hType]
      exact hWordCase name (.inr hType) (by rw [hType]; rfl)

/-- The canonical form of a parameter has no comments. -/
theorem writtenParameter_of_printable {stream : Bool} {argument : RpcArgument}
    (hArgument : argument.Printable stream) :
    WrittenParameter stream argument (argument.tokens stream) := by
  have hNone : ∀ token ∈ [], Token.isComment token = true := List.forall_mem_nil _
  have hTokens : argument.tokens stream =
      streamMark stream ++ (argument.typeTokens ++ ([] ++ (argument.name.toList ++ []))) := by
    rw [RpcArgument.tokens_eq, List.nil_append, List.append_nil]
  rw [hTokens]
  exact .intro (writtenType_of_printable hArgument) hArgument.name hNone hNone

/-! ## Methods -/

/-- Canonical parameters all carry the mark of their side. -/
theorem writtenInputs_of_printable {stream : Bool} {inputs : List RpcArgument}
    (hInputs : ∀ argument ∈ inputs, argument.Printable stream) :
    WrittenInputs (inputs.map fun argument => (stream, argument))
      (commaSeparated (inputs.map (RpcArgument.tokens stream)) ++ [")"]) := by
  have hNone : ∀ token ∈ [], Token.isComment token = true := List.forall_mem_nil _
  induction inputs with
  | nil => exact .none hNone
  | cons argument others ih =>
      have hParameter := writtenParameter_of_printable (hInputs argument (by simp))
      cases others with
      | nil => exact .last hNone hParameter
      | cons next others =>
          have hMore := WrittenInputs.more hNone hParameter
            (ih fun other hOther => hInputs other (List.mem_cons_of_mem _ hOther))
          simpa [commaSeparated] using hMore

/-- Where every parameter carries the mark, the list is streaming if it has one. -/
theorem any_marked {stream : Bool} {inputs : List RpcArgument}
    (hStream : stream = true → inputs ≠ []) :
    (inputs.map fun argument => (stream, argument)).any Prod.fst = stream := by
  cases stream with
  | false => simp
  | true =>
      obtain ⟨first, others, rfl⟩ := List.exists_cons_of_ne_nil (hStream rfl)
      simp

/-- The end of a method is read back. -/
theorem reads_rpcEnd {method : RpcMethod} (hDeclared : method.options.Declared)
    (hNesting : method.options.nesting ≤ levels) (hRest : NoSemicolonFirst rest) :
    rpcEnd.Reads levels (method.endTokens ++ rest) method.options rest := by
  by_cases hEmpty : method.options.isEmpty = true
  · -- a method without options ends with a semicolon instead of a body
    have hNone : method.options = ∅ := by
      cases hOptions : method.options with
      | mk bindings =>
          rw [hOptions] at hEmpty
          rw [show bindings = [] from List.isEmpty_iff.mp hEmpty]
          rfl
    rw [RpcMethod.endTokens, if_pos hEmpty, hNone]
    exact .bind (reads_eat _) (.pure _)
  · have hTokens : method.endTokens ++ rest =
        Token.openBrace :: (method.options.statements ++ Token.closeBrace :: rest) := by
      simp [RpcMethod.endTokens, hEmpty, braced]
    have hBody : (loop (memberHead "rpc") rpcBodyMember ∅).Reads levels
        (method.options.statements ++ Token.closeBrace :: rest) method.options rest := by
      refine reads_statements
        (fun state ahead => (loop (memberHead "rpc") rpcBodyMember state).Reads levels ahead
          method.options rest)
        id hDeclared hNesting ?_ (noSemicolonFirst_cons (by decide))
        (reads_loop_done reads_memberHead_done)
      intro bound grown ahead after hOption hAfter
      exact reads_loop_item
        (reads_memberHead printableComments_nil (by decide) (by decide)) hOption hAfter
    rw [hTokens]
    refine .bind (reads_eat_other (by simp; decide)) ?_
    refine .bind (reads_expect _ _) ?_
    refine .bind hBody ?_
    refine .bind (reads_eat_other hRest) ?_
    exact .pure _

/-- After its keyword a method is read back. -/
theorem reads_rpcRest {method : RpcMethod} (hMethod : method.Printable)
    (hNesting : method.options.nesting ≤ levels) (hRest : NoSemicolonFirst rest) :
    (rpcRest method.comments).Reads levels
      (method.name :: "(" ::
        (commaSeparated (method.inputs.map (RpcArgument.tokens method.clientStreaming)) ++
          ")" :: Keyword.returns.text :: "(" ::
            (method.output.tokens method.serverStreaming ++ ")" :: (method.endTokens ++ rest))))
      method rest := by
  have hEnd : rpcEnd.Gives levels (method.endTokens ++ rest) (.ok method.options) rest :=
    reads_rpcEnd hMethod.options hNesting hRest
  have hGives := gives_rpcRest hMethod.name (writtenInputs_of_printable hMethod.inputs)
    (writtenType_of_printable hMethod.output) hEnd method.comments
  -- an output has no name, so reading none loses nothing
  have hOutput : (⟨none, method.output.type, method.output.repeated⟩ : RpcArgument) =
      method.output := by
    rw [← hMethod.unnamed]
  have hInputs : (method.inputs.map fun argument => (method.clientStreaming, argument)).map
      Prod.snd = method.inputs := by simp [Function.comp_def]
  rw [any_marked hMethod.streaming, hInputs, hOutput] at hGives
  have hReads : (rpcRest method.comments).Reads levels
      (methodTokens method.name
        (commaSeparated (method.inputs.map (RpcArgument.tokens method.clientStreaming)) ++ [")"])
        method.serverStreaming method.output.typeTokens (method.endTokens ++ rest))
      method rest := hGives
  simpa [methodTokens, RpcArgument.tokens_eq, hMethod.unnamed] using hReads

theorem noSemicolonFirst_method (method : RpcMethod) : NoSemicolonFirst method.tokens :=
  (noSemicolonFirst_commentTokens _).append (noSemicolonFirst_cons (by decide))

/-! ## Services -/

/-- With `service` read so far, the members ahead are read to `final`. -/
def ServiceReads (levels : Nat) (final : Service) (later : List Token) (service : Service)
    (ahead : List Token) : Prop :=
  (loop (memberHead "service") serviceMember service).Reads levels ahead final later

section Members

variable {service final : Service} {name : String} {methods : List RpcMethod}

/-- A method, and then the other members. -/
theorem serviceReads_method {method : RpcMethod} (hMethod : method.Printable)
    (hNesting : method.options.nesting ≤ levels) (hLater : NoSemicolonFirst rest)
    (hRest : ServiceReads levels final later
      { service with methods := service.methods ++ [method] } rest) :
    ServiceReads levels final later service (method.tokens ++ rest) := by
  have hTokens : method.tokens ++ rest = commentTokens method.comments ++
      (Keyword.rpc.text :: method.name :: "(" ::
        (commaSeparated (method.inputs.map (RpcArgument.tokens method.clientStreaming)) ++
          ")" :: Keyword.returns.text :: "(" ::
            (method.output.tokens method.serverStreaming ++
              ")" :: (method.endTokens ++ rest)))) := by
    simp [RpcMethod.tokens]
  rw [hTokens]
  exact reads_loop_item (reads_memberHead hMethod.comments (by decide) (by decide))
    (.bind (reads_rpcRest hMethod hNesting hLater) (.pure _)) hRest

theorem serviceReads_methods (hMethods : ∀ method ∈ methods, method.Printable)
    (hNesting : deepest (fun method => method.options.nesting) methods ≤ levels)
    (hLater : NoSemicolonFirst rest)
    (hRest : ServiceReads levels final later ⟨name, methods, ∅, []⟩ rest) :
    ServiceReads levels final later (.new name) (methods.flatMap RpcMethod.tokens ++ rest) := by
  refine reads_flatMap (ServiceReads levels final later) (fun done => ⟨name, done, ∅, []⟩) ?_
    (fun method _ => noSemicolonFirst_method method) hLater hRest
  intro done method todo hSplit after hAfterFirst hAfter
  have hMem : method ∈ methods := List.mem_iff_append.mpr ⟨done, todo, hSplit⟩
  have hLevels : method.options.nesting ≤ levels :=
    le_trans (le_deepest (fun method => method.options.nesting) hMem) hNesting
  exact serviceReads_method (hMethods method hMem) hLevels hAfterFirst hAfter

theorem serviceReads_options {options : OptionMap} (hDeclared : options.Declared)
    (hNesting : options.nesting ≤ levels) (hLater : NoSemicolonFirst rest)
    (hRest : ServiceReads levels final later ⟨name, methods, options, []⟩ rest) :
    ServiceReads levels final later ⟨name, methods, ∅, []⟩ (options.statements ++ rest) := by
  refine reads_statements (ServiceReads levels final later)
    (fun bound => ⟨name, methods, bound, []⟩) hDeclared hNesting ?_ hLater hRest
  intro bound grown ahead after hOption hAfter
  exact reads_loop_item (reads_memberHead printableComments_nil (by decide) (by decide))
    (.bind hOption (.pure _)) hAfter

end Members

/-- After its keyword a service is read back, apart from the comments before it. -/
theorem reads_serviceRest {service : Service} (hService : service.Printable)
    (hNesting : service.nesting ≤ levels) (hRest : NoSemicolonFirst rest) :
    serviceRest.Reads levels
      (service.name :: (braced (service.methods.flatMap RpcMethod.tokens ++
        service.options.statements) ++ rest))
      { service with comments := [] } rest := by
  obtain ⟨hOptionLevels, hMethodLevels⟩ := Nat.max_le.mp hNesting
  have hClose : NoSemicolonFirst (Token.closeBrace :: rest) := noSemicolonFirst_cons (by decide)
  have hBody : ServiceReads levels { service with comments := [] } rest (.new service.name)
      (service.methods.flatMap RpcMethod.tokens ++
        (service.options.statements ++ Token.closeBrace :: rest)) := by
    refine serviceReads_methods hService.methods hMethodLevels
      ((noSemicolonFirst_statements _).append hClose) ?_
    apply serviceReads_options hService.options hOptionLevels hClose
    exact reads_loop_done reads_memberHead_done
  have hTokens : braced (service.methods.flatMap RpcMethod.tokens ++
      service.options.statements) ++ rest = Token.openBrace ::
        (service.methods.flatMap RpcMethod.tokens ++
          (service.options.statements ++ Token.closeBrace :: rest)) := by
    simp [braced]
  rw [hTokens]
  refine .bind (reads_word hService.name _ _) ?_
  refine .bind (reads_expect _ _) ?_
  refine .bind hBody ?_
  refine .bind (reads_eat_other hRest) ?_
  exact .pure _

theorem noSemicolonFirst_service (service : Service) : NoSemicolonFirst service.tokens :=
  (noSemicolonFirst_commentTokens _).append (noSemicolonFirst_cons (by decide))

end Grammar
end ProtoIdl
