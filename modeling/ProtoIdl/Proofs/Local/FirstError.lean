import ProtoIdl.Proofs.Local.Statement
import ProtoIdl.Proofs.Parser.FileLoop

/-!
# The first error wins

The error of a file does not depend on what follows the tokens that it was found in.  Only a
report that the tokens end may be overtaken by more tokens.
-/

namespace ProtoIdl

/-- An error of a file stays the same error, place included, whatever tokens are added at the
end, unless it says that the tokens end there. -/
theorem readFile_append_of_error {tokens : List Token} {settings : Settings} {fault : ParseError}
    (hFault : readFile tokens settings = .error fault)
    (hNotEnd : ∀ expected context, fault ≠ .unterminated expected context tokens.length)
    (more : List Token) : readFile (tokens ++ more) settings = .error fault := by
  rw [readFile_eq] at hFault ⊢
  split at hFault
  · cases hFault
  · next refused after hRun =>
      cases hFault
      rcases Grammar.fails_statements_extended hRun with ⟨expected, context, hEnd⟩ | hSame
      · have hStop : (Cursor.ofTokens tokens settings.maxDepth).stop = tokens.length := by
          simp [Cursor.ofTokens, Cursor.stop, Cursor.index, Cursor.left]
        rw [hStop] at hEnd
        exact absurd hEnd (hNotEnd expected context)
      · have hMore : (Cursor.ofTokens tokens settings.maxDepth).extended more =
            .ofTokens (tokens ++ more) settings.maxDepth := rfl
        obtain ⟨stopped, hRefused⟩ := hSame more
        rw [← hMore, hRefused]

/-- A semicolon in place of the name of a message is the first error, whatever follows. -/
theorem readFile_append_of_error_message :
    readFile (["message", ";"] ++ ["enum", "E"]) {} =
      .error (.unexpectedToken ";" "message" 1) := by
  have hFault : readFile ["message", ";"] {} = .error (.unexpectedToken ";" "message" 1) := by
    simp only [readFile, Grammar.file, Parser.loop_eq]
    rfl
  exact readFile_append_of_error hFault nofun ["enum", "E"]

end ProtoIdl
