import ProtoIdl.Proofs.Commented.Message
import ProtoIdl.Proofs.Parser.FileLoop

/-!
# Places in files

A statement of a file adds a declaration to its schema, or it sets something else there.  So the
comments of a target come into the schema by its last statement, if that is the target or has it
inside, and otherwise they were in the schema before.
-/

namespace ProtoIdl
namespace Grammar

open ProtoIdl.Parser

variable {start after : Cursor} {first : Token} {target : Declaration}

/-- Read a statement and add it to a schema.  Whether one has been read before is given. -/
def topStatement (started : Bool) (schema : Schema) (head : List String × Token) : Parser Schema :=
  if head.2 = ";" then pure schema
  else declaration schema started head.1 (Keyword.ofToken? head.2)

theorem steady_topStatement (started : Bool) :
    SteadyItem (topStatement started) Schema.nesting where
  detached schema head := by
    unfold topStatement
    split
    · exact ⟨fun _ _ => .pure schema, fun _ _ => .of_settled (.pure schema), fun _ => .pure schema⟩
    · exact detached_declaration _ _ _ _
  gauged schema head _ := by
    unfold topStatement
    split
    · exact .pure rfl
    · exact gauged_declaration _ _ _ _
  marked schema head _ := by
    unfold topStatement
    split
    · next hEmpty => exact .pure (by rw [hEmpty]; exact marked_concat [] (by decide))
    · exact marked_declaration _ _ _ _

/-- The comments of a file do not matter to its statements. -/
theorem topStatement_withComments (started : Bool) (schema : Schema) (own : List String)
    (head : List String × Token) :
    topStatement started { schema with comments := own } head =
      (fun grown => { grown with comments := own }) <$> topStatement started schema head := by
  unfold topStatement
  split
  · rfl
  · unfold declaration
    split
    · simp only [map_bind, map_pure]
    · split
      · rfl
      · simp only [map_bind, map_pure]
    · simp only [map_bind, map_pure]
    · simp only [map_bind, map_pure]
    · simp only [map_bind, map_pure]
    · simp only [map_bind, map_pure]
    · simp only [map_bind, map_pure]
    · simp only [map_bind, map_pure]
    · rfl

/-- What a statement sets besides the lists of declarations has no part in the comments there. -/
theorem memberPlaces_unlisted {schema grown : Schema} {started : Bool} {rest : Parser α}
    {family : List String → Schema} (build : Schema → α → Schema)
    (hItem : ∀ other, topStatement started (schema.withLists other) ([], first) =
      rest >>= fun value => pure (build (schema.withLists other) value))
    (hBuild : ∀ other value,
      build (schema.withLists other) value = (build schema value).withLists other)
    (hTraced : rest.Traced start)
    (hRun : (rest >>= fun value => pure (build schema value)).run start = .ok grown after)
    (hDepth : after.depth = start.depth) (hSlot : grown.Slot target family) :
    MemberPlaces Schema.Slot (topStatement started) start.depth start.limit schema first start.rest
      target family after.rest := by
  obtain ⟨value, rfl, -, hReads⟩ := exists_of_run_build hTraced hRun hDepth
  have hSame : build schema value = (build schema value).withLists schema := hBuild schema value
  have hMessages := congrArg Schema.messages hSame
  have hEnums := congrArg Schema.enums hSame
  have hServices := congrArg Schema.services hSame
  have hBlocks := congrArg Schema.extendBlocks hSame
  obtain ⟨hBefore, hFamily⟩ := hSlot.carried schema hMessages hEnums hServices hBlocks
  refine .earlier hBefore fun comments => ?_
  have hAgain : build (schema.withLists (family comments)) value = family comments :=
    (hBuild _ _).trans (hFamily comments).symm
  rw [hItem]
  refine hReads.bind ?_
  rw [hAgain]
  exact .pure _

/-- A statement is the target itself, or the target is inside it, or it was in the schema before. -/
theorem memberPlaces_topStatement {schema grown : Schema} {started : Bool}
    {family : List String → Schema} (hSeen : start.seen ≠ [])
    (hPlain : ∀ token ∈ start.rest, token.isComment = false) (hLevel : start.depth ≤ start.limit)
    (hRun : (topStatement started schema ([], first)).run start = .ok grown after)
    (hDepth : after.depth = start.depth) (hSlot : grown.Slot target family) :
    MemberPlaces Schema.Slot (topStatement started) start.depth start.limit schema first start.rest
      target family after.rest := by
  by_cases hEmpty : first = ";"
  · exact memberPlaces_pure (fun _ _ => if_pos hEmpty) hRun hSlot
  · obtain ⟨keyword, hFirst⟩ : ∃ keyword, Keyword.ofToken? first = keyword := ⟨_, rfl⟩
    have hItem : ∀ other comments, topStatement started other (comments, first) =
        declaration other started comments keyword := by
      intro other comments
      rw [← hFirst]
      exact if_neg hEmpty
    have hBody : ∀ entered : Cursor, entered.left < start.left → BodyPlaces entered :=
      fun entered _ => bodyPlaces entered
    have hDeclared := hRun
    rw [hItem] at hDeclared
    unfold declaration at hDeclared
    split at hDeclared
    · -- a package, a revision, an option and an import have no comments of their own
      exact memberPlaces_unlisted (fun schema name => { schema with package := some name })
        (fun _ => hItem _ _) (fun _ _ => rfl) traced_packageRest hDeclared hDepth hSlot
    · cases started with
      | true => cases hDeclared
      | false =>
          exact memberPlaces_unlisted (fun schema version => { schema with version := version })
            (fun _ => hItem _ _) (fun _ _ => rfl) traced_versionRest hDeclared hDepth hSlot
    · -- the comments of a message, an enum or a service are set on what has been read
      have hListed : ∀ other comments, topStatement started other (comments, first) =
          (messageRest >>= fun decl => pure { decl with comments := comments }) >>= fun decl =>
            pure { other with messages := other.messages ++ [decl] } := by
        intro other comments
        rw [hItem, bind_assoc]
        simp only [pure_bind]
        rfl
      exact memberPlaces_listed hListed (fun _ hAdded => hAdded.of_concat_message)
        (fun _ _ hDecl hOwn =>
          partPlaces_message hFirst hBody hSeen hPlain hLevel hDecl hDepth hOwn)
        (.bind traced_messageRest fun decl _ _ => .pure _) hRun hDepth hSlot
    · have hListed : ∀ other comments, topStatement started other (comments, first) =
          (enumRest >>= fun decl => pure { decl with comments := comments }) >>= fun decl =>
            pure { other with enums := other.enums ++ [decl] } := by
        intro other comments
        rw [hItem, bind_assoc]
        simp only [pure_bind]
        rfl
      exact memberPlaces_listed hListed (fun _ hAdded => hAdded.of_concat_enum)
        (fun _ _ hDecl hOwn => partPlaces_enum hFirst hSeen hPlain hLevel hDecl hDepth hOwn)
        (.bind traced_enumRest fun decl _ _ => .pure _) hRun hDepth hSlot
    · exact memberPlaces_unlisted (fun schema options => { schema with options := options })
        (fun _ => hItem _ _) (fun _ _ => rfl) (traced_bindOptionRest _) hDeclared hDepth hSlot
    · exact memberPlaces_unlisted
        (fun schema entry => { schema with imports := schema.imports ++ [entry] })
        (fun _ => hItem _ _) (fun _ _ => rfl) traced_importRest hDeclared hDepth hSlot
    · exact memberPlaces_listed hItem (fun _ hAdded => hAdded.of_concat_block)
        (fun _ _ hDecl hOwn => partPlaces_extend hBody hPlain hLevel hDecl hOwn)
        traced_extendRest hRun hDepth hSlot
    · have hListed : ∀ other comments, topStatement started other (comments, first) =
          (serviceRest >>= fun decl => pure { decl with comments := comments }) >>= fun decl =>
            pure { other with services := other.services ++ [decl] } := by
        intro other comments
        rw [hItem, bind_assoc]
        simp only [pure_bind]
        rfl
      exact memberPlaces_listed hListed (fun _ hAdded => hAdded.of_concat_service)
        (fun _ _ hDecl hOwn => partPlaces_service hFirst hSeen hPlain hLevel hDecl hDepth hOwn)
        (.bind traced_serviceRest fun service _ _ => .pure _) hRun hDepth hSlot
    · cases hDeclared

end Grammar
end ProtoIdl
