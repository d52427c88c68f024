import ProtoIdl.Proofs.Ahead.Construct
import ProtoIdl.Proofs.Commented.Member

/-!
# Places inside braces

An enum, a service and a group are a name and a list of members in braces.  They have places for
the comments of all that is in the list, since nothing is in it before its first member.
-/

namespace ProtoIdl
namespace Grammar

open ProtoIdl.Parser

variable {start after : Cursor} {first : Token} {before : List Token} {target : Declaration}

/-! ## What stands behind a name and a brace -/

/-- What begins with a name and a brace goes on behind them at the same level. -/
theorem exists_of_run_heading {expected context opening : String} {second : String → Parser β}
    {value : β}
    (hRun : (word expected context >>= fun name =>
      expect Token.openBrace opening >>= fun _ => second name).run start = .ok value after) :
    ∃ (name : Token) (opened : Cursor), name.isWordLike = true ∧
      start.rest = name :: Token.openBrace :: opened.rest ∧ opened.depth = start.depth ∧
      opened.limit = start.limit ∧ (second name).run opened = .ok value after := by
  obtain ⟨name, between, hName, hBrace⟩ := run_bind_eq_ok_iff.mp hRun
  obtain ⟨token, rest, hRest, hCheck⟩ := exists_of_run_next_bind hName
  obtain ⟨hWord, rfl, rfl⟩ := of_run_checkWord hCheck
  obtain ⟨inner, hInner, hSecond⟩ := exists_of_run_expect_bind hBrace
  obtain rfl : rest = Token.openBrace :: inner := hInner
  exact ⟨name, (start.past name (Token.openBrace :: inner)).past Token.openBrace inner, hWord,
    hRest, rfl, rfl, hSecond⟩

/-- A place behind a name and a brace. -/
theorem places_heading {depth limit : Nat} {ahead later : List Token} {name : Token}
    {expected context opening : String} {second : String → Parser β} {family : List String → β}
    (hWord : name.isWordLike = true) (hLevel : depth ≤ limit)
    (hPlaces : (second name).Places depth limit [] target ahead family later) :
    (word expected context >>= fun name => expect Token.openBrace opening >>= fun _ =>
      second name).Places depth limit before target (name :: Token.openBrace :: ahead) family
        later := by
  have hHeading : ∀ later, (word expected context >>= fun name =>
      expect Token.openBrace opening >>= fun _ => pure name).ReadsAt depth limit
        ([name] ++ Token.openBrace :: later) name later := by
    intro later
    exact ((reads_word hWord _ _).here hLevel).bind
      (((reads_expect _ _).here hLevel).bind (.pure name))
  have hShape : (word expected context >>= fun name => expect Token.openBrace opening >>= fun _ =>
        second name) =
      (word expected context >>= fun name => expect Token.openBrace opening >>= fun _ =>
        pure name) >>= second := by
    simp only [bind_assoc, pure_bind]
  rw [hShape]
  exact .after (by decide) hHeading hPlaces

/-! ## Lists in braces -/

/-- Read a name and, in braces, a list of members. -/
def bracedList (expected context : String) (item : String → σ → List String × Token → Parser σ)
    (new : String → σ) : Parser σ := do
  let name ← word expected context
  expect Token.openBrace context
  loop (memberHead context) (item name) (new name)

theorem enumRest_eq :
    enumRest = thenSemicolon (bracedList "enum name" "enum" (fun _ => enumMember) .new) := by
  simp only [enumRest, thenSemicolon, bracedList, bind_assoc]

theorem serviceRest_eq :
    serviceRest =
      thenSemicolon (bracedList "service name" "service" (fun _ => serviceMember) .new) := by
  simp only [serviceRest, thenSemicolon, bracedList, bind_assoc]

theorem oneofRest_nil :
    oneofRest [] = bracedList "oneof name" "oneof" oneofMember fun _ => [] := rfl

section BracedList

variable {item : String → σ → List String × Token → Parser σ} {levels : σ → Nat}
  {Slot : σ → Declaration → (List String → σ) → Prop} {new : String → σ}

/-- A list in braces has places for the comments of what is in it. -/
theorem places_bracedList (hItem : ∀ name, SteadyItem (item name) levels)
    (hNew : ∀ name, levels (new name) = 0) (hNone : ∀ name family, ¬Slot (new name) target family)
    (hMember : ∀ {name : String} {state grown : σ} {first : Token} {start after : Cursor}
      {family : List String → σ}, start.seen ≠ [] →
        (∀ token ∈ start.rest, token.isComment = false) → start.depth ≤ start.limit →
          (item name state ([], first)).run start = .ok grown after → after.depth = start.depth →
            Slot grown target family →
              MemberPlaces Slot (item name) start.depth start.limit state first start.rest target
                family after.rest)
    {expected context : String} {final : σ} {family : List String → σ}
    (hPlain : ∀ token ∈ start.rest, token.isComment = false) (hLevel : start.depth ≤ start.limit)
    (hRun : (bracedList expected context item new).run start = .ok final after)
    (hSlot : Slot final target family) :
    (bracedList expected context item new).Places start.depth start.limit before target start.rest
      family after.rest := by
  obtain ⟨name, opened, hWord, hRest, hDepth, hLimit, hLoop⟩ := exists_of_run_heading hRun
  have hInside : ∀ token ∈ opened.rest, token.isComment = false := fun token hMem =>
    hPlain token (by rw [hRest]; exact List.mem_cons_of_mem _ (List.mem_cons_of_mem _ hMem))
  have hEmpty : opened.depth + levels (new name) ≤ opened.limit := by
    rw [hNew, hDepth, hLimit]
    exact hLevel
  -- nothing was in the list before its first member
  have hPlaces := places_or_earlier (takesComments_memberHead context) (hItem name)
    (fun _ => hMember) hInside hEmpty hLoop hSlot
  rw [hDepth, hLimit] at hPlaces
  rw [hRest]
  rcases hPlaces with ⟨_, hBefore, -⟩ | hPlaces
  · exact absurd hBefore (hNone name _)
  · exact places_heading hWord hLevel hPlaces

end BracedList

/-- A semicolon that may follow changes nothing. -/
theorem places_thenSemicolon {parser : Parser α} {value : α} {family : List String → α}
    (hPlaces : ∀ between, parser.run start = .ok value between → between.depth = start.depth →
      parser.Places start.depth start.limit before target start.rest family between.rest)
    (hRun : (thenSemicolon parser).run start = .ok value after)
    (hDepth : after.depth = start.depth) :
    (thenSemicolon parser).Places start.depth start.limit before target start.rest family
      after.rest := by
  obtain ⟨answer, between, hAnswer, hRun⟩ := run_bind_eq_ok_iff.mp hRun
  obtain ⟨taken, last, hStop, hDone⟩ := run_bind_eq_ok_iff.mp hRun
  cases hDone
  have hBetween : after.depth = between.depth := by
    have hSame := (Levelless.eat ";").depth_eq between
    rw [hStop] at hSame
    exact hSame
  have hStop : (eat ";").ReadsAt between.depth between.limit between.rest taken after.rest :=
    .of_run (.eat _) hStop hBetween
  rw [← hBetween, hDepth, (onward_of_ok hAnswer).limit_eq] at hStop
  exact (hPlaces between hAnswer (hBetween.symm.trans hDepth)).bind fun _ => hStop.bind (.pure _)

theorem places_enumRest {decl : EnumDecl} {family : List String → EnumDecl}
    (hPlain : ∀ token ∈ start.rest, token.isComment = false) (hLevel : start.depth ≤ start.limit)
    (hRun : enumRest.run start = .ok decl after) (hDepth : after.depth = start.depth)
    (hSlot : decl.MemberSlot target family) :
    enumRest.Places start.depth start.limit before target start.rest family after.rest := by
  have hNone : ∀ name family, ¬(EnumDecl.new name).MemberSlot target family := by
    rintro name family ⟨hList⟩
    exact hList.not_nil
  rw [enumRest_eq] at hRun ⊢
  refine places_thenSemicolon (fun between hList _ => ?_) hRun hDepth
  exact places_bracedList (fun _ => steady_enumMember) (fun _ => rfl) hNone
    (fun hSeen _ => memberPlaces_enumMember hSeen) hPlain hLevel hList hSlot

theorem places_serviceRest {service : Service} {family : List String → Service}
    (hPlain : ∀ token ∈ start.rest, token.isComment = false) (hLevel : start.depth ≤ start.limit)
    (hRun : serviceRest.run start = .ok service after) (hDepth : after.depth = start.depth)
    (hSlot : service.MemberSlot target family) :
    serviceRest.Places start.depth start.limit before target start.rest family after.rest := by
  have hNone : ∀ name family, ¬(Service.new name).MemberSlot target family := by
    rintro name family ⟨hList⟩
    exact hList.not_nil
  rw [serviceRest_eq] at hRun ⊢
  refine places_thenSemicolon (fun between hList _ => ?_) hRun hDepth
  exact places_bracedList (fun _ => steady_serviceMember) (fun _ => rfl) hNone
    (fun hSeen _ => memberPlaces_serviceMember hSeen) hPlain hLevel hList hSlot

theorem places_oneofRest {fields : List Field} {family : List String → List Field}
    (hPlain : ∀ token ∈ start.rest, token.isComment = false) (hLevel : start.depth ≤ start.limit)
    (hRun : (oneofRest []).run start = .ok fields after)
    (hSlot : ListSlot Field.Slot fields target family) :
    (oneofRest []).Places start.depth start.limit before target start.rest family after.rest := by
  rw [oneofRest_nil] at hRun ⊢
  exact places_bracedList steady_oneofMember (fun _ => rfl) (fun _ _ => ListSlot.not_nil)
    memberPlaces_oneofMember hPlain hLevel hRun hSlot

/-! ## Enums and services by themselves -/

theorem detached_enumRest : Detached enumRest where
  traced _ _ := traced_enumRest
  closed _ _ := closed_enumRest
  looksAhead _ := looksAhead_enumRest

theorem detached_serviceRest : Detached serviceRest where
  traced _ _ := traced_serviceRest
  closed _ _ := closed_serviceRest
  looksAhead _ := looksAhead_serviceRest

/-- The comments of an enum are not read with it. -/
theorem comments_of_run_enumRest {decl : EnumDecl}
    (hRun : enumRest.run start = .ok decl after) : decl.comments = [] := by
  have hMember : ∀ decl head (cursor : Cursor), decl.comments = [] →
      Yields (enumMember decl head) (fun decl => decl.comments = []) cursor := by
    rintro decl ⟨comments, first⟩ cursor hNone
    rcases enumMember_cases first with hMember | hMember | hMember | hMember <;> rw [hMember]
    · exact .pure hNone
    · exact .after fun options _ _ => .pure hNone
    · exact .after fun reserved _ _ => .pure hNone
    · refine .after fun value _ _ => .ofExcept fun grown hAdd => ?_
      rw [(addEnumValue_eq_ok hAdd).2]
      exact hNone
  have hRest : Yields enumRest (fun decl => decl.comments = []) start := by
    refine .after fun name afterName _ => ?_
    refine .after fun _ afterBrace _ => ?_
    refine .bind (.loop (fun decl head start _ => hMember decl head start) rfl)
      fun decl afterDecl _ hNone => ?_
    refine .after fun _ afterSemicolon _ => ?_
    exact .pure hNone
  exact hRest decl after hRun

theorem comments_of_run_serviceRest {service : Service}
    (hRun : serviceRest.run start = .ok service after) : service.comments = [] := by
  have hMember : ∀ service head (cursor : Cursor), service.comments = [] →
      Yields (serviceMember service head) (fun service => service.comments = []) cursor := by
    rintro service ⟨comments, first⟩ cursor hNone
    rcases serviceMember_cases first with hMember | hMember | ⟨-, hMember⟩ | hMember <;>
      rw [hMember]
    · exact .pure hNone
    · exact .after fun options _ _ => .pure hNone
    · exact .after fun method _ _ => .pure hNone
    · exact .rejectLast _
  have hRest : Yields serviceRest (fun service => service.comments = []) start := by
    refine .after fun name afterName _ => ?_
    refine .after fun _ afterBrace _ => ?_
    refine .bind (.loop (fun service head start _ => hMember service head start) rfl)
      fun service afterService _ hNone => ?_
    refine .after fun _ afterSemicolon _ => ?_
    exact .pure hNone
  exact hRest service after hRun

/-- What follows a keyword is read by itself with the keyword. -/
theorem exists_text_of_keyword {keyword : Keyword} {context : String} {rest : Parser α} {value : α}
    (hRest : Detached rest) (hFirst : Keyword.ofToken? first = some keyword)
    (hSeen : start.seen ≠ []) (hLevel : start.depth ≤ start.limit)
    (hRun : rest.run start = .ok value after) (hDepth : after.depth = start.depth) :
    ∃ text, first :: start.rest = text ++ after.rest ∧
      (expect keyword.text context >>= fun _ => rest).ReadsAt start.depth start.limit text value
        [] := by
  obtain ⟨used, hUsed, hAlone⟩ := hRest.exists_alone hSeen hRun hDepth
  obtain rfl : keyword.text = first := Keyword.text_of_ofToken? hFirst
  exact ⟨keyword.text :: used, congrArg (keyword.text :: ·) hUsed,
    ((reads_expect _ _).here hLevel).bind hAlone⟩

theorem opens_enum {decl : EnumDecl} (hFirst : Keyword.ofToken? first = some .enum)
    (hSeen : start.seen ≠ []) (hLevel : start.depth ≤ start.limit)
    (hRun : enumRest.run start = .ok decl after) (hDepth : after.depth = start.depth) :
    (Declaration.enum { decl with comments := [] }).Opens start.limit (first :: start.rest) := by
  obtain ⟨text, hText, hReads⟩ :=
    exists_text_of_keyword detached_enumRest hFirst hSeen hLevel hRun hDepth
  rw [← comments_of_run_enumRest hRun]
  exact ⟨text, after.rest, start.depth, hText, hReads⟩

theorem opens_service {service : Service} (hFirst : Keyword.ofToken? first = some .service)
    (hSeen : start.seen ≠ []) (hLevel : start.depth ≤ start.limit)
    (hRun : serviceRest.run start = .ok service after) (hDepth : after.depth = start.depth) :
    (Declaration.service { service with comments := [] }).Opens start.limit
      (first :: start.rest) := by
  obtain ⟨text, hText, hReads⟩ :=
    exists_text_of_keyword detached_serviceRest hFirst hSeen hLevel hRun hDepth
  rw [← comments_of_run_serviceRest hRun]
  exact ⟨text, after.rest, start.depth, hText, hReads⟩

theorem partPlaces_enum {decl : EnumDecl} {family : List String → EnumDecl}
    (hFirst : Keyword.ofToken? first = some .enum) (hSeen : start.seen ≠ [])
    (hPlain : ∀ token ∈ start.rest, token.isComment = false) (hLevel : start.depth ≤ start.limit)
    (hRun : (enumRest >>= fun decl => pure { decl with comments := [] }).run start =
      .ok decl after)
    (hDepth : after.depth = start.depth) (hSlot : decl.Slot target family) :
    PartPlaces (fun comments => enumRest >>= fun decl => pure { decl with comments := comments })
      start.depth start.limit first start.rest target family after.rest := by
  obtain ⟨bare, rfl, hBare, hReads⟩ := exists_of_run_build traced_enumRest hRun hDepth
  cases hSlot with
  | own =>
      exact .own (opens_enum hFirst hSeen hLevel hBare hDepth) fun comments => hReads.bind (.pure _)
  | member hInner =>
      obtain ⟨hValues⟩ := hInner
      have hPlaces : enumRest.Places start.depth start.limit [first] target start.rest _
          after.rest := places_enumRest hPlain hLevel hBare hDepth (.value hValues)
      exact .inner (hPlaces.bind fun comments => .pure _)

theorem partPlaces_service {service : Service} {family : List String → Service}
    (hFirst : Keyword.ofToken? first = some .service) (hSeen : start.seen ≠ [])
    (hPlain : ∀ token ∈ start.rest, token.isComment = false) (hLevel : start.depth ≤ start.limit)
    (hRun : (serviceRest >>= fun service => pure { service with comments := [] }).run start =
      .ok service after)
    (hDepth : after.depth = start.depth) (hSlot : service.Slot target family) :
    PartPlaces (fun comments => serviceRest >>= fun service =>
      pure { service with comments := comments }) start.depth start.limit first start.rest target
        family after.rest := by
  obtain ⟨bare, rfl, hBare, hReads⟩ := exists_of_run_build traced_serviceRest hRun hDepth
  cases hSlot with
  | own =>
      exact .own (opens_service hFirst hSeen hLevel hBare hDepth) fun comments =>
        hReads.bind (.pure _)
  | member hInner =>
      obtain ⟨hMethods⟩ := hInner
      have hPlaces : serviceRest.Places start.depth start.limit [first] target start.rest _
          after.rest := places_serviceRest hPlain hLevel hBare hDepth (.method hMethods)
      exact .inner (hPlaces.bind fun comments => .pure _)

end Grammar
end ProtoIdl
