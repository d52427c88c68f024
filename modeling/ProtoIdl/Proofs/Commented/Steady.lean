import ProtoIdl.Proofs.Ahead.Grammar
import ProtoIdl.Proofs.Bracket.File
import ProtoIdl.Proofs.Commented.Place
import ProtoIdl.Proofs.Local.Member

/-!
# Members that stand by themselves

The members of enums, services, groups and messages and the statements of a file are read in the
same way wherever they stand and whatever follows them, except that some take a semicolon that
comes next.  They keep the level, and they end with a semicolon or with a closing brace.
-/

namespace ProtoIdl

namespace Parser

variable {cursor : Cursor}

/-! ## Runs that may go on -/

theorem run_eat_bind_taken {token : Token} {rest : List Token} {second : Bool → Parser β}
    (hRest : cursor.rest = token :: rest) :
    (eat token >>= second).run cursor = (second true).run (cursor.past token rest) := by
  simp only [eat, bind_assoc, pure_bind]
  exact run_takeIf_bind hRest (beq_self_eq_true token)

theorem run_eat_bind_other {token : Token} {second : Bool → Parser β}
    (hOther : cursor.rest.head? ≠ some token) :
    (eat token >>= second).run cursor = (second false).run cursor := by
  simp only [eat, bind_assoc, pure_bind]
  refine run_takeIf_bind_none fun next hNext => beq_false_of_ne ?_
  rintro rfl
  exact hOther hNext

/-- A token that is taken if it is there decides what follows.  Where the tokens end, it is not
there, and what follows then reports the end. -/
theorem Closed.eat_bind {token : Token} {second : Bool → Parser β}
    (hTaken : ∀ between, Closed (second true) between) (hOther : Closed (second false) cursor)
    (hEnd : AtEnd (second false) true) : Closed (eat token >>= second) cursor := by
  by_cases hHead : cursor.rest.head? = some token
  · obtain ⟨rest, hRest⟩ := List.head?_eq_some_iff.mp hHead
    have hSecond := hTaken (cursor.past token rest)
    have hLonger : ∀ more, (eat token >>= second).run (cursor.extended more) =
        (second true).run ((cursor.past token rest).extended more) := fun more =>
      run_eat_bind_taken (by rw [Cursor.rest_extended, hRest]; rfl)
    constructor
    · intro value after hRun more
      rw [hLonger]
      rw [run_eat_bind_taken hRest] at hRun
      exact hSecond.ok hRun more
    · intro fault after hRun
      simp only [hLonger]
      rw [run_eat_bind_taken hRest] at hRun
      rw [← (onward_pass hRest).stop_eq]
      exact hSecond.error hRun
  · have hSame : (eat token >>= second).run cursor = (second false).run cursor :=
      run_eat_bind_other hHead
    by_cases hDone : cursor.rest = []
    · have hOutcome := hEnd cursor hDone
      rw [← hSame] at hOutcome
      constructor
      · intro value after hRun
        rw [hRun] at hOutcome
        cases hOutcome
      · intro fault after hRun
        rw [hRun] at hOutcome
        exact .inl hOutcome
    · have hLonger : ∀ more, (eat token >>= second).run (cursor.extended more) =
          (second false).run (cursor.extended more) := fun more =>
        run_eat_bind_other (by rwa [Cursor.rest_extended, List.head?_append_of_ne_nil _ hDone])
      constructor
      · intro value after hRun more
        rw [hLonger]
        rw [hSame] at hRun
        exact hOther.ok hRun more
      · intro fault after hRun
        simp only [hLonger]
        rw [hSame] at hRun
        exact hOther.error hRun

/-- What follows a part that may have met the end of the tokens reports the end. -/
theorem Closed.bind_atEnd {first : Parser α} {second : α → Parser β}
    (hFirst : Settled first false cursor) (hEnd : ∀ value, AtEnd (second value) true)
    (hSecond : ∀ value between, first.run cursor = .ok value between →
      Closed (second value) between) : Closed (first >>= second) cursor := by
  -- where tokens are left, the first part ends in the same way
  have hAhead : ∀ {value : α} {between : Cursor}, first.run cursor = .ok value between →
      between.rest ≠ [] → ∀ more, (first >>= second).run (cursor.extended more) =
        (second value).run (between.extended more) := by
    intro value between hRun hRest more
    rw [run_bind, hFirst.ok hRun (fun _ => hRest) more]
  constructor
  · intro value after hRun more
    obtain ⟨inner, between, hInner, hOuter⟩ := run_bind_eq_ok_iff.mp hRun
    have hRest : between.rest ≠ [] := by
      intro hDone
      have hOutcome := hEnd inner between hDone
      rw [hOuter] at hOutcome
      cases hOutcome
    rw [hAhead hInner hRest]
    exact (hSecond inner between hInner).ok hOuter more
  · intro fault after hRun
    refine Settled.error_of_bind hFirst.error (fun inner between hInner hOuter => ?_) hRun
    by_cases hDone : between.rest = []
    · have hOutcome := hEnd inner between hDone
      rw [hOuter] at hOutcome
      exact .inl hOutcome
    · simp only [hAhead hInner hDone]
      exact (hSecond inner between hInner).error hOuter

end Parser

namespace Grammar

open ProtoIdl.Parser

variable {cursor : Cursor}

/-! ## Methods -/

/-- A method ends with a semicolon, or with a body after which one may come. -/
theorem closed_rpcEnd : Closed rpcEnd cursor := by
  have hOptions : ∀ start, Settled (loop (memberHead "rpc") rpcBodyMember ∅) true start := fun _ =>
    .memberLoop (fun options head _ => settled_rpcBodyMember options head) _ _
  refine .eat_bind (fun _ => .of_settled (.pure ∅)) ?_ ?_
  · refine .bind (.expect _ _) fun _ afterBrace _ => ?_
    refine .bind (hOptions _) fun options afterOptions _ => ?_
    exact .semicolon options
  · exact .bind_left (.expect _ _)

theorem closed_rpcRest (comments : List String) : Closed (rpcRest comments) cursor := by
  refine .bind (.word _ _) fun name afterName _ => ?_
  refine .bind (.expect _ _) fun _ afterOpen _ => ?_
  refine .bind_atEnd settled_rpcParameters (fun _ => .bind_left (.expect _ _))
    fun inputs afterInputs _ => ?_
  refine .bind (.expect _ _) fun _ afterReturns _ => ?_
  refine .bind (.expect _ _) fun _ afterParen _ => ?_
  refine .bind_atEnd (.eat _) (fun _ => .bind_left (atEnd_rpcType _)) fun stream afterStream _ => ?_
  refine .bind (settled_rpcType _) fun typed afterTyped _ => ?_
  refine .bind (.expect _ _) fun _ afterClose _ => ?_
  exact .map closed_rpcEnd _

theorem closed_serviceMember (service : Service) (head : List String × Token)
    (hSeen : cursor.seen ≠ []) : Closed (serviceMember service head) cursor := by
  unfold serviceMember
  split
  · exact .of_settled (.pure service)
  · split
    · exact .of_settled (.bind (settled_bindOptionRest _) fun options _ _ => .pure _)
    · exact .map (closed_rpcRest _) _
    · exact .map (closed_rpcRest _) _
    · exact .of_settled (.rejectLast hSeen _)

/-! ## Fields -/

/-- The token that is looked at is taken, unless the parser fails. -/
theorem looksAhead_fieldWord (slot : FieldSlot) : (fieldWord slot).LooksAhead 0 cursor := by
  have hWord : (word slot.noun "message field").Consumes fun _ => True :=
    .bind_left (next_consumes _ _)
  refine .bind_takes .peek (fun found start answer last hRun => ?_) fun found start _ => ?_
  · split at hRun
    · cases hRun
    · exact hWord start answer last hRun trivial
  · split
    · exact .fail _
    · exact .word _ _

theorem looksAhead_ruledHead (comments : List String) (required repeated : Bool) :
    (ruledHead comments required repeated).LooksAhead 0 cursor := by
  refine .bind .takeComments fun _ afterComments _ => ?_
  refine .bind (looksAhead_fieldWord _) fun type afterType _ => ?_
  exact .pure _

theorem looksAhead_fieldHead (comments : List String) (first : Token) :
    (fieldHead comments first).LooksAhead 0 cursor := by
  unfold fieldHead
  split
  · exact .bind looksAhead_mapTypeRest fun type _ _ => .pure _
  · exact looksAhead_ruledHead _ _ _
  · exact looksAhead_ruledHead _ _ _
  · exact looksAhead_ruledHead _ _ _
  · exact .bind (.checkWord _ _) fun type _ _ => .pure _

theorem looksAhead_fieldRest (comments : List String) (first : Token) :
    (fieldRest comments first).LooksAhead 0 cursor := by
  refine .bind (looksAhead_fieldHead _ _) fun head afterHead _ => ?_
  refine .bind (looksAhead_fieldWord _) fun name afterName _ => ?_
  refine .bind (.expect _ _) fun _ afterEquals _ => ?_
  refine .bind (.next _ _) fun literal afterLiteral _ => ?_
  refine .bind (.numeral _ _ _) fun tag afterTag _ => ?_
  refine .bind looksAhead_optionalFieldOptions fun options afterOptions _ => ?_
  refine .bind (.expect _ _) fun _ afterEnd _ => ?_
  exact .pure _

theorem looksAhead_oneofMember (group : String) (fields : List Field)
    (head : List String × Token) : (oneofMember group fields head).LooksAhead 0 cursor := by
  unfold oneofMember
  split
  · exact .pure fields
  · split
    · exact .rejectLast _
    · exact .rejectLast _
    · exact .rejectLast _
    · exact .rejectLast _
    · exact .bind (looksAhead_fieldRest _ _) fun field _ _ => .pure _

theorem looksAhead_oneofRest (fields : List Field) : (oneofRest fields).LooksAhead 0 cursor := by
  refine .bind (.word _ _) fun group afterGroup _ => ?_
  refine .bind (.expect _ _) fun _ afterBrace _ => ?_
  exact .memberLoop (fun fields head _ => looksAhead_oneofMember group fields head) _ _

/-! ## Members of messages -/

theorem looksAhead_enumRest : enumRest.LooksAhead 0 cursor := by
  refine .bind (.word _ _) fun name afterName _ => ?_
  refine .bind (.expect _ _) fun _ afterBrace _ => ?_
  refine .bind (.memberLoop (fun decl head _ => looksAhead_enumMember decl head) _ _)
    fun decl afterDecl _ => ?_
  refine .bind (.eat _) fun _ afterSemicolon _ => ?_
  exact .pure _

theorem looksAhead_extensionsRest (ranges : List ExtensionRange) :
    (extensionsRest ranges).LooksAhead 0 cursor := by
  refine .commaList (fun ranges start => ?_) _ _ ranges
  have hRange : extensionRange.LooksAhead 1 start := by
    refine .bind (.next _ _) fun literal afterLiteral _ => ?_
    refine .bind (.numeral _ _ _) fun first afterFirst _ => ?_
    refine .bind (looksAhead_rangeEnd _ _ _ _ _) fun last afterLast _ => ?_
    exact .pure _
  exact .bind hRange fun range _ _ => .pure _

theorem looksAhead_messageMember (message : Message) (head : List String × Token) :
    (messageMember message head).LooksAhead 0 cursor := by
  unfold messageMember
  split
  · exact .pure message
  · split
    · exact .bind looksAhead_enumRest fun decl _ _ => .pure _
    · exact .bind (looksAhead_extensionsRest _) fun ranges _ _ => .pure _
    · exact .bind (looksAhead_reservedRest _ _) fun reserved _ _ => .pure _
    · exact .bind (looksAhead_oneofRest _) fun fields _ _ => .pure _
    · exact .bind (looksAhead_bindOptionRest _) fun options _ _ => .pure _
    · exact .bind (looksAhead_fieldRest _ _) fun field _ _ => .pure _

theorem looksAhead_messageStatement (message : Message) (head : List String × Token) :
    (messageStatement message head).LooksAhead 0 cursor := by
  unfold messageStatement
  split
  · exact looksAhead_messageMember message head
  · exact .bind (looksAhead_block _ _) fun named _ _ => .pure _

theorem traced_messageStatement (message : Message) (head : List String × Token)
    (hSeen : cursor.seen ≠ []) : Traced (messageStatement message head) cursor := by
  unfold messageStatement
  split
  · exact traced_messageMember message head hSeen
  · refine .bind (traced_block _ fun name entered _ => traced_members (.new name) entered)
      fun named afterNamed _ => ?_
    exact .pure _

theorem gauged_messageStatement (message : Message) (head : List String × Token) :
    Gauged (messageStatement message head) message.innerNesting Message.innerNesting cursor := by
  unfold messageStatement
  split
  · exact gauged_messageMember message head
  · next kind _ =>
      have hBlock : Gauged (block kind fun name => members (.new name)) 0
          (fun named => named.2.innerNesting + 1) cursor :=
        gauged_block kind fun name entered _ => gauged_members (.new name) entered
      exact .read hBlock (Nat.zero_le _) fun named _ => innerNesting_addBlock ..

/-- A block ends with its closing brace. -/
theorem marked_block (kind : BlockKind) (first : Token) :
    Spans (block kind fun name => members (.new name)) (fun _ used => Marked (first :: used))
      cursor := by
  have hMembers : ∀ name (entered : Cursor), entered.left < cursor.left →
      Spans (members (.new name)) (fun _ used => Enclosed used) entered :=
    fun name _ _ => spans_members (.new name)
  refine .mono (spans_block kind hMembers) fun named used hUsed => ?_
  obtain ⟨-, inner, rfl, -⟩ := hUsed
  have hShape : first :: named.1 :: Token.openBrace :: (inner ++ [Token.closeBrace]) =
      first :: named.1 :: Token.openBrace :: inner ++ [Token.closeBrace] := by simp
  rw [hShape]
  exact marked_concat _ (by decide)

theorem marked_messageStatement (message : Message) (head : List String × Token) :
    Spans (messageStatement message head) (fun _ used => Marked (head.2 :: used)) cursor := by
  unfold messageStatement
  split
  · exact .mono (spans_messageMember message head) fun _ _ hUsed => hUsed.marked
  · exact .returning (marked_block _ _)

/-! ## Statements of a file -/

theorem looksAhead_packageRest : packageRest.LooksAhead 0 cursor := by
  refine .bind (.word _ _) fun name afterName _ => ?_
  refine .bind (.expect _ _) fun _ afterEnd _ => ?_
  exact .pure name

theorem looksAhead_versionRest : versionRest.LooksAhead 0 cursor := by
  refine .bind (.expect _ _) fun _ afterEquals _ => ?_
  refine .bind (.next _ _) fun literal afterLiteral _ => ?_
  split
  · exact .fail _
  · refine .bind (.expect _ _) fun _ afterEnd _ => ?_
    exact .pure _

theorem looksAhead_importModifier : importModifier.LooksAhead 0 cursor := by
  refine .bind (.eat _) fun isPublic afterPublic _ => ?_
  split
  · exact .pure _
  · refine .bind (.eat _) fun isWeak afterWeak _ => ?_
    split <;> exact .pure _

theorem looksAhead_importRest : importRest.LooksAhead 0 cursor := by
  refine .bind looksAhead_importModifier fun modifier afterModifier _ => ?_
  refine .bind (.word _ _) fun path afterPath _ => ?_
  refine .bind (.expect _ _) fun _ afterEnd _ => ?_
  exact .pure _

theorem looksAhead_serviceRest : serviceRest.LooksAhead 0 cursor := by
  refine .bind (.word _ _) fun name afterName _ => ?_
  refine .bind (.expect _ _) fun _ afterBrace _ => ?_
  refine .bind (.memberLoop (fun service head _ => looksAhead_serviceMember service head) _ _)
    fun service afterService _ => ?_
  refine .bind (.eat _) fun _ afterSemicolon _ => ?_
  exact .pure _

theorem looksAhead_declaration (schema : Schema) (started : Bool) (comments : List String)
    (keyword : Option Keyword) :
    (declaration schema started comments keyword).LooksAhead 0 cursor := by
  unfold declaration
  split
  · exact .bind looksAhead_packageRest fun name _ _ => .pure _
  · split
    · exact .fail _
    · exact .bind looksAhead_versionRest fun version _ _ => .pure _
  · exact .bind looksAhead_messageRest fun decl _ _ => .pure _
  · exact .bind looksAhead_enumRest fun decl _ _ => .pure _
  · exact .bind (looksAhead_bindOptionRest _) fun options _ _ => .pure _
  · exact .bind looksAhead_importRest fun entry _ _ => .pure _
  · exact .bind looksAhead_extendRest fun block _ _ => .pure _
  · exact .bind looksAhead_serviceRest fun service _ _ => .pure _
  · exact .rejectLast _

theorem marked_declaration (schema : Schema) (started : Bool) (comments : List String)
    (first : Token) :
    Spans (declaration schema started comments (Keyword.ofToken? first))
      (fun _ used => Marked (first :: used)) cursor := by
  cases hKind : BlockKind.ofToken? first with
  | none => exact .mono (spans_declaration hKind _ _ _) fun _ _ hUsed => hUsed.marked
  | some kind =>
      rw [BlockKind.keyword_of_ofToken? hKind]
      cases kind with
      | message => exact .returning (.returning (marked_block .message first))
      | extend => exact .returning (.returning (marked_block .extend first))

theorem detached_declaration (schema : Schema) (started : Bool) (comments : List String)
    (keyword : Option Keyword) : Detached (declaration schema started comments keyword) where
  traced _ hSeen := traced_declaration schema started comments keyword hSeen
  closed _ hSeen := closed_declaration schema started comments keyword hSeen
  looksAhead _ := looksAhead_declaration schema started comments keyword

/-! ## Lists -/

theorem steady_enumMember : SteadyItem enumMember EnumDecl.nesting where
  detached decl head :=
    ⟨fun _ hSeen => traced_enumMember decl head hSeen,
      fun _ hSeen => .of_settled (settled_enumMember decl head hSeen),
      fun _ => looksAhead_enumMember decl head⟩
  gauged decl head _ := gauged_enumMember decl head
  marked decl head _ := .mono (spans_enumMember decl head) fun _ _ hUsed => hUsed.marked

theorem steady_serviceMember : SteadyItem serviceMember Service.nesting where
  detached service head :=
    ⟨fun _ hSeen => traced_serviceMember service head hSeen,
      fun _ hSeen => closed_serviceMember service head hSeen,
      fun _ => looksAhead_serviceMember service head⟩
  gauged service head _ := gauged_serviceMember service head
  marked service head _ := .mono (spans_serviceMember service head) fun _ _ hUsed => hUsed.marked

theorem steady_oneofMember (group : String) :
    SteadyItem (oneofMember group) (deepest fun field => field.options.nesting) where
  detached fields head :=
    ⟨fun _ hSeen => traced_oneofMember group fields head hSeen,
      fun _ hSeen => .of_settled (settled_oneofMember group fields head hSeen),
      fun _ => looksAhead_oneofMember group fields head⟩
  gauged fields head _ := gauged_oneofMember group fields head
  marked fields head _ :=
    .mono (spans_oneofMember group fields head) fun _ _ hUsed => hUsed.marked

theorem steady_messageStatement : SteadyItem messageStatement Message.innerNesting where
  detached message head :=
    ⟨fun _ hSeen => traced_messageStatement message head hSeen,
      fun _ hSeen => closed_messageStatement message head hSeen,
      fun _ => looksAhead_messageStatement message head⟩
  gauged message head _ := gauged_messageStatement message head
  marked message head _ := marked_messageStatement message head

end Grammar
end ProtoIdl
