import ProtoIdl.Proofs.Commented.File

/-!
# The first statement of a file

Empty statements apart, the comments before the first statement of a file become those of the file.
After it the comments of the file stay as they are.  So every declaration of a schema that has been
read without comments has its place in the tokens, and the comments that are put there are those of
the file too if there are only empty statements before.
-/

namespace ProtoIdl
namespace Grammar

open ProtoIdl.Parser

/-! ## After the first statement -/

/-- Once a statement has been read, it is only the schema that grows. -/
theorem loop_started (schema : Schema) :
    loop statementHead statement ⟨schema, true⟩ =
      (fun grown => ⟨grown, true⟩) <$> loop statementHead (topStatement true) schema := by
  refine loop_map (fun grown => FileState.mk grown true) (fun grown head => ?_) schema
  unfold statement topStatement
  split
  · rfl
  · rw [map_eq_pure_bind]
    rfl

theorem loop_withComments (schema : Schema) (own : List String) :
    loop statementHead (topStatement true) { schema with comments := own } =
      (fun grown => { grown with comments := own }) <$>
        loop statementHead (topStatement true) schema :=
  loop_map (fun grown : Schema => { grown with comments := own })
    (fun grown head => topStatement_withComments true grown own head) schema

/-- The first statement gives the file its comments, and the others keep them. -/
theorem statement_bind_loop (schema : Schema) {head : List String × Token}
    (hOther : head.2 ≠ ";") :
    (statement ⟨schema, false⟩ head >>= loop statementHead statement) =
      topStatement false schema head >>= fun grown =>
        (fun final => ⟨{ final with comments := head.1 }, true⟩) <$>
          loop statementHead (topStatement true) grown := by
  have hFirst : statement ⟨schema, false⟩ head =
      topStatement false { schema with comments := head.1 } head >>= fun grown =>
        pure ⟨grown, true⟩ := by
    rw [statement_eq hOther, topStatement, if_neg hOther]
    rfl
  rw [hFirst, topStatement_withComments]
  simp only [bind_assoc, pure_bind, bind_map_left, loop_started, loop_withComments, Functor.map_map]

variable {cursor last : Cursor} {target : Declaration}

section First

variable {depth limit : Nat} {ahead middle rest later : List Token}

theorem readsAt_firstStatement {schema grown final : Schema} {first : Token} {shown : List String}
    (hOther : first ≠ ";") (hLevel : depth ≤ limit)
    (hHead : statementHead.toParser.Reads 0 ahead (some (shown, first)) middle)
    (hItem : (topStatement false schema (shown, first)).ReadsAt depth limit middle grown rest)
    (hLoop : (loop statementHead (topStatement true) grown).ReadsAt depth limit rest final later) :
    (loop statementHead statement ⟨schema, false⟩).ReadsAt depth limit ahead
      ⟨{ final with comments := shown }, true⟩ later := by
  rw [loop_eq]
  refine (hHead.here hLevel).bind ?_
  dsimp only
  rw [statement_bind_loop schema hOther]
  exact hItem.bind (hLoop.map _)

end First

/-- The comments of a file, of those that stand behind `front`. -/
def fileComments (front : List Token) (comments : List String) : List String :=
  if ∀ token ∈ front, token = ";" then comments else []

theorem fileComments_cons_of_ne {first : Token} (hOther : first ≠ ";") (front : List Token)
    (comments : List String) : fileComments (first :: front) comments = [] :=
  if_neg fun hAll => hOther (hAll first (by simp))

theorem fileComments_empty_cons (front : List Token) (comments : List String) :
    fileComments (";" :: front) comments = fileComments front comments := by
  simp [fileComments]

/-- Among these tokens is the place for the comments of the target, where statements from here on
are the first ones of their file. -/
def FilePlaces (schema : Schema) (depth limit : Nat) (target : Declaration) (ahead : List Token)
    (family : List String → Schema) (later : List Token) : Prop :=
  ∃ front back, ahead = front ++ back ∧ Marked front ∧ target.Opens limit back ∧
    (loop statementHead statement ⟨schema, false⟩).ReadsAround depth limit front back
      (fun comments => ⟨{ family comments with comments := fileComments front comments }, true⟩)
      later

/-- The target is the first statement or inside it, or it is in a later statement. -/
theorem filePlaces_of_first {schema grown bare : Schema} {first : Token} {start next : Cursor}
    {family : List String → Schema} (hNone : ∀ before, ¬schema.Slot target before)
    (hOther : first ≠ ";") (hSeen : start.seen ≠ [])
    (hPlain : ∀ token ∈ start.rest, token.isComment = false)
    (hHead : ∀ comments later : List Token, (∀ token ∈ comments, token.isComment = true) →
      statementHead.toParser.Reads 0 (comments ++ first :: later)
        (some (comments.map Token.commentBody, first)) later)
    (hLevel : start.depth + schema.nesting ≤ start.limit)
    (hRun : (topStatement false schema ([], first)).run start = .ok grown next)
    (hLoop : (loop statementHead (topStatement true) grown).run next = .ok bare last)
    (hSlot : bare.Slot target family) :
    FilePlaces schema start.depth start.limit target (first :: start.rest) family last.rest := by
  have hBare : ∀ later, statementHead.toParser.Reads 0 (first :: later) (some ([], first)) later :=
    fun later => hHead [] later fun _ hMem => nomatch hMem
  obtain ⟨hDepth, -, hGrown⟩ :=
    ((steady_topStatement false).gauged schema ([], first) start).of_ok hLevel hRun
  obtain ⟨used, hUsed, hMarked⟩ :=
    (steady_topStatement false).marked schema ([], first) start grown next hRun
  have hLimit := (onward_of_ok hRun).limit_eq
  have hNext : ∀ token ∈ next.rest, token.isComment = false := fun token hMem =>
    hPlain token (by rw [hUsed]; exact List.mem_append_right _ hMem)
  rw [← hDepth, ← hLimit] at hGrown
  have hPlaces := places_or_earlier takesComments_statementHead (steady_topStatement true)
    (fun _ hSeen hStart hLevel => memberPlaces_topStatement hSeen hStart hLevel) hNext hGrown hLoop
    hSlot
  rw [hDepth, hLimit] at hPlaces
  have hHere : start.depth ≤ start.limit := by omega
  rcases hPlaces with ⟨between, hBetween, hReads⟩ | ⟨front, back, hRest, hFront, hOpens, hReads⟩
  · cases memberPlaces_topStatement hSeen hPlain hHere hRun hDepth hBetween with
    | earlier hEarlier _ => exact absurd hEarlier (hNone _)
    | own hOpens hItem =>
        refine ⟨[], first :: start.rest, rfl, marked_nil, hOpens, fun comments hComments => ?_⟩
        exact readsAt_firstStatement hOther hHere (hHead comments _ hComments) (hItem _) (hReads _)
    | inner hPlaces =>
        obtain ⟨front, back, hRest, hFront, hOpens, hItem⟩ := hPlaces
        refine ⟨first :: front, back, congrArg (first :: ·) hRest, hFront, hOpens,
          fun comments hComments => ?_⟩
        dsimp only
        rw [fileComments_cons_of_ne hOther]
        exact readsAt_firstStatement hOther hHere (hBare _) (hItem comments hComments) (hReads _)
  · refine ⟨first :: (used ++ front), back, by simp [hUsed, hRest], hMarked.append hFront, hOpens,
      fun comments hComments => ?_⟩
    dsimp only
    rw [fileComments_cons_of_ne hOther, List.cons_append, List.append_assoc]
    have hAround := ((steady_topStatement false).detached schema ([], first)).readsAt hSeen hRun
      hDepth hUsed (by rw [hRest]; exact head?_around hComments)
    exact readsAt_firstStatement hOther hHere (hBare _) hAround (hReads comments hComments)

/-- Every declaration of a file has a place for its comments. -/
theorem filePlaces {schema : Schema} {final : FileState} {family : List String → Schema}
    (hNone : ∀ before, ¬schema.Slot target before)
    (hPlain : ∀ token ∈ cursor.rest, token.isComment = false)
    (hLevel : cursor.depth + schema.nesting ≤ cursor.limit)
    (hRun : (loop statementHead statement ⟨schema, false⟩).run cursor = .ok final last)
    (hSlot : final.schema.Slot target family) :
    FilePlaces schema cursor.depth cursor.limit target cursor.rest family last.rest := by
  induction hLeft : cursor.left using Nat.strongRecOn generalizing cursor with
  | ind left ih =>
      rw [loop_eq] at hRun
      obtain ⟨found, start, hFound, hRound⟩ := run_bind_eq_ok_iff.mp hRun
      have hDepth : start.depth = cursor.depth := by
        have hSame := Levelless.statementHead.depth_eq cursor
        rw [hFound] at hSame
        exact hSame
      have hLimit := (onward_of_ok hFound).limit_eq
      cases found with
      | none =>
          cases hRound
          exact absurd hSlot (hNone _)
      | some found =>
          obtain ⟨bodies, first⟩ := found
          obtain ⟨hBodies, hRest, hHead⟩ := takesComments_statementHead.found hPlain hFound
          obtain rfl : bodies = [] := hBodies
          have hLess := statementHead.progress cursor _ start hFound rfl
          have hSeen := (onward_of_ok hFound).seen_ne_nil_of_lt hLess
          have hStart : ∀ token ∈ start.rest, token.isComment = false := fun token hMem =>
            hPlain token (by rw [hRest]; exact List.mem_cons_of_mem _ hMem)
          rw [hRest, ← hDepth, ← hLimit]
          rw [← hDepth, ← hLimit] at hLevel
          by_cases hEmpty : first = ";"
          · -- an empty statement is passed over
            subst hEmpty
            obtain ⟨front, back, hTokens, hMarked, hOpens, hReads⟩ :=
              ih start.left (by omega) hStart hLevel hRound rfl
            refine ⟨";" :: front, back, congrArg (";" :: ·) hTokens,
              (marked_concat [] (by decide)).append hMarked, hOpens, fun comments hComments => ?_⟩
            have hSkip : statementHead.toParser.Reads 0 (";" :: (front ++ (comments ++ back)))
                (some ([], ";")) (front ++ (comments ++ back)) :=
              hHead [] _ fun _ hMem => nomatch hMem
            dsimp only
            rw [fileComments_empty_cons]
            exact readsAt_loop_item hSkip (by omega) (.pure _) (hReads comments hComments)
          · dsimp only at hRound
            rw [statement_bind_loop schema hEmpty] at hRound
            obtain ⟨grown, next, hGrown, hLater⟩ := run_bind_eq_ok_iff.mp hRound
            rw [map_eq_pure_bind] at hLater
            obtain ⟨bare, stop, hLoop, hDone⟩ := run_bind_eq_ok_iff.mp hLater
            cases hDone
            obtain ⟨hBare, hFamily⟩ := hSlot.carried bare rfl rfl rfl rfl
            have hPlaces := filePlaces_of_first hNone hEmpty hSeen hStart hHead hLevel hGrown hLoop
              hBare
            have hSame : ∀ comments own, { bare.withLists (family comments) with comments := own } =
                { family comments with comments := own } := by
              intro comments own
              rw [hFamily comments]
              rfl
            simp only [FilePlaces, hSame] at hPlaces
            exact hPlaces

end Grammar
end ProtoIdl
