import ProtoIdl.Proofs.Members.Method

/-!
# What the body of a service means

A service is made of the methods and the options that its members stand for, in order.  It fails
only where an option is bound twice, in the service or in the body of a method, at the first
member that does so.
-/

namespace ProtoIdl

/-- No option of the service is bound twice, and none of a method. -/
structure Service.KeysApart (service : Service) : Prop where
  options : service.options.keys.Nodup
  methods : ∀ method ∈ service.methods, method.options.keys.Nodup

namespace Service.KeysApart

variable {service : Service}

theorem concat_method_iff {method : RpcMethod} :
    KeysApart { service with methods := service.methods ++ [method] } ↔
      service.KeysApart ∧ method.options.keys.Nodup := by
  constructor
  · rintro ⟨hOptions, hMethods⟩
    exact ⟨⟨hOptions, fun other hOther => hMethods other (List.mem_append_left _ hOther)⟩,
      hMethods method (by simp)⟩
  · rintro ⟨⟨hOptions, hMethods⟩, hMethod⟩
    refine ⟨hOptions, fun other hOther => ?_⟩
    rcases List.mem_append.mp hOther with hOld | hNew
    · exact hMethods other hOld
    · rw [List.mem_singleton.mp hNew]
      exact hMethod

theorem append_option_iff {key : String} {value : OptionValue} :
    KeysApart { service with options := service.options.append key value } ↔
      service.KeysApart ∧ key ∉ service.options.keys := by
  constructor
  · rintro ⟨hOptions, hMethods⟩
    obtain ⟨hKeys, hNew⟩ := OptionMap.nodup_keys_append_iff.mp hOptions
    exact ⟨⟨hKeys, hMethods⟩, hNew⟩
  · rintro ⟨⟨hKeys, hMethods⟩, hNew⟩
    exact ⟨OptionMap.nodup_keys_append hKeys hNew value, hMethods⟩

end Service.KeysApart

namespace Grammar

open ProtoIdl.Parser

variable {levels : Nat}

/-! ## Members -/

/-- A member of a service, by what it stands for.  The options of a method are those of its body,
of which two may have one name. -/
inductive ServicePart where
  | method (method : RpcMethod)
  | option (binding : String × OptionValue)
  | empty

namespace ServicePart

/-- How a member is written after a run of comments. -/
inductive Written (levels : Nat) (comments : List Token) : ServicePart → List Token → Prop
  | method {method : RpcMethod} {tokens : List Token}
      (hMethod : WrittenMethod levels comments method tokens) :
      Written levels comments (.method method) tokens
  | option {binding : String × OptionValue} {tokens : List Token}
      (hAlone : Grammar.option.ReadsAlone levels tokens binding) :
      Written levels comments (.option binding) tokens
  | empty : Written levels comments .empty [";"]

/-- The method that a member declares. -/
def method? : ServicePart → Option RpcMethod
  | .method declared => some declared
  | _ => none

/-- The option that a member binds. -/
def binding? : ServicePart → Option (String × OptionValue)
  | .option binding => some binding
  | _ => none

/-- The service of some members, in order. -/
def declaration (name : String) (parts : List ServicePart) : Service :=
  ⟨name, parts.filterMap method?, ⟨parts.filterMap binding?⟩, []⟩

/-- Add a member to a service. -/
def add (service : Service) : ServicePart → Except ParseError Service
  | .method declared => do
      let method ← declared.bindOptions
      .ok { service with methods := service.methods ++ [method] }
  | .option binding => do
      let options ← service.options.bind binding.1 binding.2
      .ok { service with options := options }
  | .empty => .ok service

end ServicePart

theorem serviceMember_method {keyword : Token}
    (hKeyword : keyword = Keyword.rpc.text ∨ keyword = Keyword.function.text) (service : Service)
    (bodies : List String) :
    serviceMember service (bodies, keyword) =
      rpcRest bodies >>= fun method =>
        pure { service with methods := service.methods ++ [method] } := by
  rcases hKeyword with rfl | rfl <;> rfl

/-- The members of a service are read as they are written. -/
theorem givesMembers_service (levels : Nat) :
    GivesMembers levels (ServicePart.Written levels) ServicePart.add serviceMember where
  item {comments tokens part} hPart := by
    cases hPart with
    | @method method tokens hMethod =>
        obtain ⟨keyword, rest, rfl, hKeyword, hGives⟩ := hMethod.gives
        have hFirst : keyword.isComment = false ∧ keyword ≠ Token.closeBrace := by
          rcases hKeyword with rfl | rfl <;> decide
        refine ⟨keyword, rest, rfl, hFirst.1, hFirst.2, fun service later => ?_⟩
        obtain ⟨after, hAfter, hRest⟩ := hGives later
        refine ⟨after, hAfter, ?_⟩
        rw [serviceMember_method hKeyword]
        exact hRest.map fun method => { service with methods := service.methods ++ [method] }
    | @option binding tokens hAlone =>
        obtain ⟨rest, rfl, hGives⟩ := exists_gives_bindOption hAlone
        refine ⟨_, rest, rfl, by decide, by decide, fun service later => ⟨later, .inl rfl, ?_⟩⟩
        exact (hGives service.options later).map fun options => { service with options := options }
    | empty =>
        exact ⟨";", [], rfl, by decide, by decide,
          fun service later => ⟨later, .inl rfl, Reads.pure service⟩⟩
  empty {comments rest part} hPart := by
    generalize hTokens : ";" :: rest = tokens at hPart
    cases hPart with
    | @method method tokens hMethod =>
        obtain ⟨keyword, rest', rfl, hKeyword, -⟩ := hMethod.gives
        obtain ⟨rfl, -⟩ := List.cons.inj hTokens
        exact absurd hKeyword (by decide)
    | @option binding tokens hAlone =>
        obtain ⟨rest', rfl, -⟩ := exists_of_option hAlone
        exact absurd (List.cons.inj hTokens).1 (by decide)
    | empty => exact ⟨(List.cons.inj hTokens).2, fun _ => rfl⟩

/-! ## The service of its members -/

namespace ServicePart

variable {name : String} {done parts : List ServicePart} {part : ServicePart}

theorem declaration_method (name : String) (done : List ServicePart) (method : RpcMethod) :
    declaration name (done ++ [.method method]) =
      { declaration name done with methods := (declaration name done).methods ++ [method] } := by
  simp [declaration, method?, binding?]

theorem declaration_option (name : String) (done : List ServicePart)
    (binding : String × OptionValue) :
    declaration name (done ++ [.option binding]) =
      { declaration name done with
        options := (declaration name done).options.append binding.1 binding.2 } := by
  simp [declaration, method?, binding?, OptionMap.append]

theorem declaration_empty (name : String) (done : List ServicePart) :
    declaration name (done ++ [.empty]) = declaration name done := by
  simp [declaration, method?, binding?]

/-- A member that binds no option twice is added to the members before it. -/
theorem add_declaration (name : String) (done : List ServicePart) (part : ServicePart)
    (hApart : (declaration name (done ++ [part])).KeysApart) :
    (declaration name done).KeysApart ∧
      add (declaration name done) part = .ok (declaration name (done ++ [part])) := by
  cases part with
  | method declared =>
      rw [declaration_method, Service.KeysApart.concat_method_iff] at hApart
      refine ⟨hApart.1, ?_⟩
      rw [add, RpcMethod.bindOptions_of_nodup hApart.2, declaration_method]
      rfl
  | option binding =>
      rw [declaration_option, Service.KeysApart.append_option_iff] at hApart
      refine ⟨hApart.1, ?_⟩
      rw [add, OptionMap.bind_of_not_mem hApart.2, declaration_option]
      rfl
  | empty =>
      rw [declaration_empty] at hApart ⊢
      exact ⟨hApart, rfl⟩

/-- The key is the first that a member binds twice: in the service, or in a method. -/
def BindsTwice (name : String) (done : List ServicePart) (part : ServicePart) (key : String) :
    Prop :=
  RepeatsFirst key (declaration name (done ++ [part])).options.keys ∨
    ∃ method, part = .method method ∧ RepeatsFirst key method.options.keys

/-- A member that binds an option twice is refused. -/
theorem exists_add_repeated (hDone : (declaration name done).KeysApart)
    (hPart : ¬(declaration name (done ++ [part])).KeysApart) :
    ∃ key, BindsTwice name done part key ∧
      add (declaration name done) part = .error (.duplicate .option key) := by
  cases part with
  | method declared =>
      rw [declaration_method, Service.KeysApart.concat_method_iff] at hPart
      obtain ⟨key, hKey⟩ := exists_repeatsFirst fun hKeys => hPart ⟨hDone, hKeys⟩
      refine ⟨key, .inr ⟨declared, rfl, hKey⟩, ?_⟩
      rw [add, RpcMethod.bindOptions_of_repeatsFirst hKey]
      rfl
  | option binding =>
      rw [declaration_option, Service.KeysApart.append_option_iff] at hPart
      have hMem : binding.1 ∈ (declaration name done).options.keys := by
        by_contra hNew
        exact hPart ⟨hDone, hNew⟩
      refine ⟨binding.1, .inl ⟨_, [], ?_, hDone.options, hMem⟩, ?_⟩
      · rw [declaration_option, OptionMap.keys_append]
      · rw [add, OptionMap.bind_of_mem hMem]
        rfl
  | empty =>
      rw [declaration_empty] at hPart
      exact absurd hDone hPart

end ServicePart

/-! ## Main result -/

/-- A service means its members, and so does each of its methods.  However its parameters are
written, a method has those that are listed, in order, and it is a stream on their side if one of
them has the mark; its result has no name, and its options are those of its body.  This holds if
no option is bound twice.  Otherwise the service fails at the first member that binds one twice. -/
theorem service_gives_members {name : String} {parts : List ServicePart}
    {tokens closing : List Token} (hName : IsWord name)
    (hWritten : WrittenMembers (ServicePart.Written levels) parts tokens)
    (hClosing : ∀ token ∈ closing, token.isComment = true) (later : List Token) :
    ((ServicePart.declaration name parts).KeysApart →
      service.Reads levels
        (Keyword.service.text :: name :: Token.openBrace ::
          (tokens ++ (closing ++ Token.closeBrace :: later)))
        (ServicePart.declaration name parts) (dropSemicolon later)) ∧
    (¬(ServicePart.declaration name parts).KeysApart →
      ∃ done part todo key, parts = done ++ part :: todo ∧
        (ServicePart.declaration name done).KeysApart ∧
        ServicePart.BindsTwice name done part key ∧
        service.FailsOn levels
          (Keyword.service.text :: name :: Token.openBrace ::
            (tokens ++ (closing ++ Token.closeBrace :: later)))
          (.duplicate .option key)) := by
  have hBody := gives_members (givesMembers_service levels) hWritten hClosing "service"
    (Service.new name) later
  have hService : service.Gives levels
      (Keyword.service.text :: name :: Token.openBrace ::
        (tokens ++ (closing ++ Token.closeBrace :: later)))
      (parts.foldlM ServicePart.add (Service.new name)) (dropSemicolon later) := by
    refine .bind_reads (reads_expect _ _) ?_
    refine .bind_reads (reads_word hName _ _) ?_
    refine .bind_reads (reads_expect _ _) ?_
    exact hBody.bind_keeps reads_dropSemicolon
  let Fits : List ServicePart → Prop := fun parts => (ServicePart.declaration name parts).KeysApart
  refine ⟨fun hApart => ?_, fun hTwice => ?_⟩
  · have hFold : parts.foldlM ServicePart.add (Service.new name) =
        .ok (ServicePart.declaration name parts) :=
      foldlM_of_fits Fits (ServicePart.add_declaration name) hApart
    rwa [hFold] at hService
  · obtain ⟨done, part, todo, rfl, hDone, hPart⟩ :=
      exists_first_misfit Fits ⟨List.nodup_nil, List.forall_mem_nil _⟩ hTwice
    obtain ⟨key, hKey, hFault⟩ := ServicePart.exists_add_repeated hDone hPart
    have hFold : (done ++ part :: todo).foldlM ServicePart.add (Service.new name) =
        .error (.duplicate .option key) :=
      foldlM_of_fault Fits (ServicePart.add_declaration name) hDone hFault
    rw [hFold] at hService
    exact ⟨done, part, todo, key, rfl, hDone, hKey, hService⟩

/-- Two methods of all shapes are read, and a method that binds an option twice is refused. -/
theorem service_gives_members_chat :
    service.Reads 0
      ["service", "Chat", Token.openBrace, "// talks", "rpc", "Talk", "(", "// in", "stream",
        "stream", "// line", "text", "// first", ",", "repeated", "string", "// tags", ",", "map",
        "<", "string", ",", "int32", ">", "map", ")", "returns", "(", "stream", "Reply", ")",
        Token.openBrace, "option", "deprecated", "=", "true", ";", ";", "// end", Token.closeBrace,
        ";", "function", "List", "(", "// none", ")", "returns", "(", "repeated", "Item", ")", ";",
        Token.closeBrace, "enum"]
      ⟨"Chat", [⟨"Talk", [⟨some "text", .named "stream", false⟩, ⟨none, .scalar "string", true⟩,
          ⟨some "map", .map "string" "int32", false⟩], ⟨none, .named "Reply", false⟩, true, true,
          ⟨[("deprecated", .bool true)]⟩, ["talks"]⟩,
        ⟨"List", [], ⟨none, .named "Item", true⟩, false, false, ∅, []⟩], ∅, []⟩ ["enum"] ∧
    service.FailsOn 0
      ["service", "Chat", Token.openBrace, "rpc", "Get", "(", "Key", ")", "returns", "(", "Item",
        ")", Token.openBrace, "option", "safe", "=", "true", ";", "option", "safe", "=", "false",
        ";", Token.closeBrace, Token.closeBrace]
      (.duplicate .option "safe") := by
  have hName : IsWord "Chat" := by decide
  have hNone : ∀ token ∈ [], Token.isComment token = true := List.forall_mem_nil _
  constructor
  · have hLine : WrittenParameter true ⟨some "text", .named "stream", false⟩
        ["stream", "stream", "// line", "text", "// first"] :=
      @WrittenParameter.intro true _ _ (some "text") _ ["// line"] ["// first"]
        (@WrittenType.plain true "stream" (by decide) (by decide) (by decide) (by decide))
        (by decide) (by decide) (by decide)
    have hTags : WrittenParameter false ⟨none, .scalar "string", true⟩
        ["repeated", "string", "// tags"] :=
      @WrittenParameter.intro false _ _ none _ [] ["// tags"]
        (@WrittenType.repeated false "string" (by decide)) (by decide) hNone (by decide)
    have hMap : WrittenParameter false ⟨some "map", .map "string" "int32", false⟩
        ["map", "<", "string", ",", "int32", ">", "map"] :=
      @WrittenParameter.intro false _ _ (some "map") _ [] []
        (.map (by decide) (by decide)) (by decide) hNone hNone
    have hIn : ∀ token ∈ ["// in"], Token.isComment token = true := by decide
    have hReply : WrittenType true (.named "Reply") false ["Reply"] :=
      @WrittenType.plain true "Reply" (by decide) (by decide) (by decide) (by decide)
    have hOption : WrittenBinding 0 [] (some ("deprecated", .bool true))
        ["option", "deprecated", "=", "true", ";"] := .option ⟨_, rfl, rfl⟩
    have hEnding : WrittenEnding 0 [("deprecated", .bool true)]
        [Token.openBrace, "option", "deprecated", "=", "true", ";", ";", "// end",
          Token.closeBrace] :=
      @WrittenEnding.body 0 _ _ ["// end"]
        (.cons hNone hOption (.cons hNone .empty .nil)) (by decide)
    have hTalk : WrittenMethod 0 ["// talks"] _ _ :=
      @WrittenMethod.intro 0 ["// talks"] "rpc" "Talk" _ _ _ _ _ _ _ _ (by decide) (by decide)
        (.more hIn hLine (.more hNone hTags (.last hNone hMap))) hReply hEnding
    have hList : WrittenMethod 0 [] _ _ :=
      @WrittenMethod.intro 0 [] "function" "List" _ _ _ _ _ _ _ _ (by decide) (by decide)
        (@WrittenInputs.none ["// none"] (by decide))
        (@WrittenType.repeated false "Item" (by decide)) .semicolon
    have hMembers : WrittenMembers (ServicePart.Written 0) _ _ :=
      .cons (by decide) (.method hTalk) <| .cons hNone .empty <|
        .cons hNone (.method hList) .nil
    exact (service_gives_members hName hMembers hNone ["enum"]).1
      ⟨List.nodup_nil, by decide⟩
  · have hKey : WrittenParameter false ⟨none, .named "Key", false⟩ ["Key"] :=
      @WrittenParameter.intro false _ _ none _ [] []
        (@WrittenType.plain false "Key" (by decide) (by decide) (by decide) (by decide))
        (by decide) hNone hNone
    have hItem : WrittenType false (.named "Item") false ["Item"] :=
      @WrittenType.plain false "Item" (by decide) (by decide) (by decide) (by decide)
    have hSafe : WrittenBinding 0 [] (some ("safe", .bool true))
        ["option", "safe", "=", "true", ";"] := .option ⟨_, rfl, rfl⟩
    have hUnsafe : WrittenBinding 0 [] (some ("safe", .bool false))
        ["option", "safe", "=", "false", ";"] := .option ⟨_, rfl, rfl⟩
    have hEnding : WrittenEnding 0 [("safe", .bool true), ("safe", .bool false)]
        [Token.openBrace, "option", "safe", "=", "true", ";", "option", "safe", "=", "false", ";",
          Token.closeBrace] :=
      @WrittenEnding.body 0 _ _ [] (.cons hNone hSafe (.cons hNone hUnsafe .nil)) hNone
    have hGet : WrittenMethod 0 [] _ _ :=
      @WrittenMethod.intro 0 [] "rpc" "Get" _ _ _ _ _ _ _ _ (by decide) (by decide)
        (.last hNone hKey) hItem hEnding
    have hMembers : WrittenMembers (ServicePart.Written 0) _ _ :=
      .cons hNone (.method hGet) .nil
    obtain ⟨done, part, todo, key, hSplit, -, hTwice, hFails⟩ :=
      (service_gives_members hName hMembers hNone []).2 fun hApart =>
        absurd (hApart.methods _ (List.mem_singleton_self _)) (by decide)
    -- the method is the only member, and both of its options have the same name
    have hSame : key = "safe" := by
      rcases List.append_eq_singleton_iff.mp hSplit.symm with ⟨rfl, hPart⟩ | ⟨-, hPart⟩
      · obtain ⟨rfl, -⟩ := List.cons.inj hPart
        rcases hTwice with hService | ⟨method, ⟨⟩, hMethod⟩
        · exact absurd (hService.mem : key ∈ []) List.not_mem_nil
        · exact (List.mem_pair.mp hMethod.mem).elim id id
      · cases hPart
    subst hSame
    exact hFails

end Grammar
end ProtoIdl
