import ProtoIdl.Grammar.File
import ProtoIdl.Proofs.Comments.Declaration

/-!
# Services and files, with and without comments

The comparison of two runs for services and for the statements of a file.  For a whole file
it says that the schema read is the same apart from its comments, unless a comment has been
taken for a value.
-/

namespace ProtoIdl
namespace Grammar

open ProtoIdl.Parser

variable {cursor : Cursor}

/-! ## Services -/

theorem balks_rpcType (context : String) (landing : Landing) :
    (rpcType context).Balks landing := by
  refine balks_eat_bind (by decide) (balks_eat_bind (by decide) ?_)
  exact (balks_word _ _ _).bind _ _

theorem mirrored_rpcType (context : String) :
    Mirrored (rpcType context) (rpcType context) .level id cursor := by
  refine .eat_bind (by decide) (by decide) (fun after => ?_) ?_ (.inr ?_)
  · exact .bind mirrored_mapTypeRest fun type _ _ => .pure rfl
  · refine .eat_bind_alike (by decide) (by decide) (fun repeated after => ?_) (.inr ?_)
    · exact .bind (.word _ _) fun type _ _ => .pure rfl
    · exact (balks_word _ _ _).bind _ _
  · exact balks_eat_bind (by decide) ((balks_word _ _ _).bind _ _)

theorem mirrored_parameterName : Mirrored parameterName parameterName .level id cursor := by
  refine .peek_bind (fun ahead => ?_) fun comment hComment => ?_
  · split
    · exact .pure rfl
    · exact .bind (.word _ _) fun name _ _ => .pure rfl
  · have hComma : comment ≠ "," := Token.ne_of_comment hComment (by decide)
    have hClose : comment ≠ ")" := Token.ne_of_comment hComment (by decide)
    rw [if_neg (by simp [hComma, hClose])]
    exact (balks_word _ _ _).bind _ _

theorem mirrored_rpcParameter (inputs : RpcInputs) :
    Mirrored (rpcParameter inputs) (rpcParameter inputs) .level id cursor := by
  refine .bind .takeComments fun _ between hBetween => ?_
  refine .eat_bind_alike (by decide) (by decide) (fun stream start => ?_)
    (.inl (beforeToken_of_takeComments hBetween))
  refine .bind (mirrored_rpcType _) fun type afterType _ => ?_
  refine .bind .takeComments fun _ afterComments _ => ?_
  refine .bind mirrored_parameterName fun name afterName _ => ?_
  refine .bind .takeComments fun _ afterComments _ => ?_
  exact .pure rfl

theorem mirrored_rpcParameters : Mirrored rpcParameters rpcParameters .level id cursor := by
  refine .bind .takeComments fun _ between hBetween => ?_
  refine .eat_bind (by decide) (by decide) (fun after => .pure rfl) ?_
    (.inl (beforeToken_of_takeComments hBetween))
  exact .commaList .level (by decide) (by decide) (by decide) (fun _ _ _ _ => trivial)
    (fun inputs _ => mirrored_rpcParameter inputs) _ _

theorem mirrored_rpcBodyMember (options : OptionMap) (comments : List String) (token : Token) :
    Mirrored (rpcBodyMember options (comments, token)) (rpcBodyMember options ([], token)) .level
      id cursor := by
  unfold rpcBodyMember
  dsimp only
  split
  · exact .pure rfl
  · split
    · exact mirrored_bindOptionRest options
    · exact .of_refuses (refuses_rejectLast _)

theorem mirrored_rpcEnd : Mirrored rpcEnd rpcEnd .nearby id cursor := by
  refine .eat_bind (by decide) (by decide) (fun _ => .pure rfl) ?_
    (.inr ((balks_expect (by decide) _ _).bind _ _))
  refine .bind (.expect (by decide) (by decide) _) fun _ braced _ => ?_
  refine .bind (.memberLoop (readsMembers_memberHead _) (fun _ _ => rfl) ?_ ?_ (∅ : OptionMap))
    fun options _ _ => .optionalSemicolon rfl
  · intro options comments
    unfold rpcBodyMember
    dsimp only
    rw [if_neg (by decide), ofToken?_equals]
    exact refuses_rejectLast _
  · exact fun options comments token start =>
      (mirrored_rpcBodyMember options comments token).weaken _

theorem mirrored_rpcRest (comments : List String) :
    Mirrored (rpcRest comments) (rpcRest []) .nearby RpcMethod.withoutComments cursor := by
  refine .bind (.word _ _) fun name afterName _ => ?_
  refine .bind (.expect (by decide) (by decide) _) fun _ afterOpen _ => ?_
  refine .bind mirrored_rpcParameters fun inputs afterInputs _ => ?_
  refine .bind (.expect (by decide) (by decide) _) fun _ afterReturns _ => ?_
  refine .bind (.expect (by decide) (by decide) _) fun _ afterParen _ => ?_
  refine .eat_bind_alike (by decide) (by decide) (fun stream start => ?_)
    (.inr ((balks_rpcType _ _).bind _ _))
  refine .bind (mirrored_rpcType _) fun type afterType _ => ?_
  refine .bind (.expect (by decide) (by decide) _) fun _ afterClose _ => ?_
  exact .bind_pure mirrored_rpcEnd fun _ => rfl

theorem mirrored_serviceMember (service : Service) (comments : List String) (token : Token) :
    Mirrored (serviceMember service (comments, token))
      (serviceMember service.withoutComments ([], token)) .nearby Service.withoutComments
      cursor := by
  unfold serviceMember
  dsimp only
  split
  · exact .pure rfl
  · split
    · exact .bind (mirrored_bindOptionRest _) fun options _ _ => .pure rfl
    · exact .bind_pure (mirrored_rpcRest comments) fun method => by
        simp [Service.withoutComments]
    · exact .bind_pure (mirrored_rpcRest comments) fun method => by
        simp [Service.withoutComments]
    · exact .of_refuses (refuses_rejectLast _)

theorem mirrored_serviceRest :
    Mirrored serviceRest serviceRest .nearby Service.withoutComments cursor := by
  refine .bind (.word _ _) fun name afterName _ => ?_
  refine .bind (.expect (by decide) (by decide) _) fun _ braced _ => ?_
  refine .bind (.memberLoop (readsMembers_memberHead _) (fun _ _ => rfl) ?_ ?_
    (Service.new name)) fun service afterService _ => .optionalSemicolon rfl
  · intro service comments
    unfold serviceMember
    dsimp only
    rw [if_neg (by decide), ofToken?_equals]
    exact refuses_rejectLast _
  · exact fun service comments token start => mirrored_serviceMember service comments token

/-! ## Files -/

theorem mirrored_packageRest : Mirrored packageRest packageRest .level id cursor := by
  refine .bind (.word _ _) fun name afterName _ => ?_
  refine .bind (.expect (by decide) (by decide) _) fun _ afterEnd _ => ?_
  exact .pure rfl

/-- A revision is named by a quoted string, which neither a comment nor an equals sign is. -/
theorem mirrored_versionRest : Mirrored versionRest versionRest .level id cursor := by
  refine .value_bind (refuses_fail _) ?_ fun literal afterLiteral _ => ?_
  · intro comment after last bare answer hComment hRun
    simp only [versionOfLiteral?, Token.startsQuoted_of_comment hComment] at hRun
    cases hRun
  · split
    · exact .of_refuses (refuses_fail _)
    · refine .bind (.expect (by decide) (by decide) _) fun _ afterEnd _ => ?_
      exact .pure rfl

/-- A comment hides a modifier that comes after it. -/
theorem mirrored_importModifier :
    Mirrored importModifier importModifier .beforeToken id cursor := by
  refine .eat_bind (by decide) (by decide) (fun _ => .pure rfl) ?_ (.inr ?_)
  · exact .eat_bind (by decide) (by decide) (fun _ => .pure rfl) (.pure rfl)
      (.inr (balks_pure none))
  · exact balks_eat_bind (by decide) (balks_pure none)

theorem mirrored_importRest : Mirrored importRest importRest .level id cursor := by
  refine .bind_of_balks mirrored_importModifier (fun _ => (balks_word _ _ _).bind _ _)
    fun modifier afterModifier _ => ?_
  refine .bind (.word _ _) fun path afterPath _ => ?_
  refine .bind (.expect (by decide) (by decide) _) fun _ afterEnd _ => ?_
  exact .pure rfl

theorem mirrored_declaration (schema : Schema) (started : Bool) (comments : List String)
    (keyword : Option Keyword) :
    Mirrored (declaration schema started comments keyword)
      (declaration schema.withoutComments started [] keyword) .nearby Schema.withoutComments
      cursor := by
  unfold declaration
  split
  · exact .bind mirrored_packageRest fun name _ _ => .pure rfl
  · split
    · exact .of_refuses (refuses_fail _)
    · exact .bind mirrored_versionRest fun version _ _ => .pure rfl
  · refine .bind mirrored_messageRest fun decl _ _ => .pure ?_
    cases decl
    simp [Schema.withoutComments, Message.withoutComments]
  · refine .bind_pure mirrored_enumRest fun decl => ?_
    simp [Schema.withoutComments, EnumDecl.withoutComments]
  · exact .bind (mirrored_bindOptionRest _) fun options _ _ => .pure rfl
  · exact .bind mirrored_importRest fun entry _ _ => .pure rfl
  · exact .bind mirrored_extendRest fun block _ _ => .pure (by simp [Schema.withoutComments])
  · refine .bind_pure mirrored_serviceRest fun decl => ?_
    simp [Schema.withoutComments, Service.withoutComments]
  · exact .of_refuses (refuses_rejectLast _)

/-- What has been read of a file, without comments. -/
def FileState.withoutComments (state : FileState) : FileState :=
  ⟨state.schema.withoutComments, state.started⟩

theorem mirrored_statement (state : FileState) (comments : List String) (token : Token) :
    Mirrored (statement state (comments, token)) (statement state.withoutComments ([], token))
      .nearby FileState.withoutComments cursor := by
  rcases state with ⟨schema, started⟩
  unfold statement
  dsimp only
  split
  · exact .pure rfl
  · cases started with
    | true => exact .bind_pure (mirrored_declaration schema true comments _) fun _ => rfl
    | false =>
        exact .bind_pure (mirrored_declaration { schema with comments := comments } false comments _)
          fun _ => rfl

/-- A whole file is read alike with and without comments, unless a comment is taken for a
value. -/
theorem mirrored_file (version : LanguageVersion) :
    Mirrored (file version) (file version) .level Schema.withoutComments cursor := by
  have hLoop : Mirrored (loop statementHead statement ⟨.new version, false⟩)
      (loop statementHead statement ⟨.new version, false⟩) .level FileState.withoutComments
      cursor := by
    refine .memberLoop readsMembers_statementHead (fun _ _ => rfl) ?_ ?_
      (⟨.new version, false⟩ : FileState)
    · intro state comments
      unfold statement
      dsimp only
      rw [if_neg (by decide), ofToken?_equals]
      exact .bind_left (refuses_rejectLast _) _
    · exact fun state comments token start => mirrored_statement state comments token
  exact .bind_pure hLoop fun _ => rfl

end Grammar
end ProtoIdl
