import ProtoIdl.Parser.Loop
import ProtoIdl.Proofs.Comments.Erasure
import ProtoIdl.Proofs.Parser.Running

/-!
# Cursors over tokens with and without comments

Two cursors are aligned when one stands in a list of tokens where the other stands in the
same tokens without comments.  What lies behind the first one is asked to hold no comment
that was taken for a value; where it does, the two runs have parted for good.

A construct that takes a semicolon if one follows can leave the two cursors a semicolon
apart, because a comment hides the semicolon from it.
-/

namespace ProtoIdl
namespace Cursor

/-- The second cursor stands where the first one does, in the tokens without comments. -/
structure Aligned (cursor bare : Cursor) : Prop where
  rest_eq : bare.rest = Token.withoutComments cursor.rest
  depth_eq : bare.depth = cursor.depth
  limit_eq : bare.limit = cursor.limit
  /-- The first cursor does not stand right after an equals sign. -/
  settled : cursor.seen.head? ≠ some "="
  /-- No comment behind the first cursor stands right after an equals sign. -/
  clean : ¬Token.PassedValue cursor.seen

/-- A comment does not come next. -/
def BeforeToken (cursor : Cursor) : Prop :=
  ∀ token, cursor.rest.head? = some token → token.isComment = false

/-- The first token ahead that is not a comment ends an option. -/
def BeforeSeparator (cursor : Cursor) : Prop :=
  ∃ token, (Token.withoutComments cursor.rest).head? = some token ∧
    (token = ";" ∨ token = "," ∨ token = "]")

/-- The cursors are aligned, or they are once the first one has passed a run of comments
and a semicolon. -/
def Near (cursor bare : Cursor) : Prop :=
  cursor.Aligned bare ∨
    ∃ comments later, (∀ token ∈ comments, token.isComment = true) ∧
      cursor.rest = comments ++ ";" :: later ∧
        Aligned
          { cursor with
            seen := ";" :: (comments.reverse ++ cursor.seen)
            rest := later }
          bare

variable {cursor bare : Cursor} {token : Token} {rest : List Token}

/-- Passing a token that is neither a comment nor an equals sign keeps cursors aligned. -/
theorem Aligned.past (hAligned : cursor.Aligned bare) (hRest : cursor.rest = token :: rest)
    (hComment : token.isComment = false) (hEquals : token ≠ "=") :
    bare.rest = token :: Token.withoutComments rest ∧
      (cursor.past token rest).Aligned (bare.past token (Token.withoutComments rest)) := by
  have hBare : bare.rest = token :: Token.withoutComments rest := by
    rw [hAligned.rest_eq, hRest, Token.withoutComments_cons hComment]
  refine ⟨hBare, rfl, hAligned.depth_eq, hAligned.limit_eq, ?_, ?_⟩
  · simpa [Cursor.past] using hEquals
  · rintro (⟨hToken, _⟩ | hEarlier)
    · rw [hComment] at hToken
      cases hToken
    · exact hAligned.clean hEarlier

/-- Passing a run of comments keeps cursors aligned. -/
theorem Aligned.past_comments (hAligned : cursor.Aligned bare) {comments later : List Token}
    (hComments : ∀ token ∈ comments, token.isComment = true)
    (hRest : cursor.rest = comments ++ later) :
    Aligned { cursor with seen := comments.reverse ++ cursor.seen, rest := later } bare := by
  have hReverse : ∀ token ∈ comments.reverse, token.isComment = true :=
    fun token hMem => hComments token (List.mem_reverse.mp hMem)
  refine ⟨?_, hAligned.depth_eq, hAligned.limit_eq, ?_, ?_⟩
  · rw [hAligned.rest_eq, hRest, Token.withoutComments_append,
      Token.withoutComments_of_comments hComments, List.nil_append]
  · intro hEquals
    cases hLast : comments.reverse with
    | nil =>
        rw [hLast] at hEquals
        exact hAligned.settled hEquals
    | cons last earlier =>
        rw [hLast] at hEquals
        cases hEquals
        exact Token.ne_of_comment (hReverse "=" (by simp [hLast])) (by decide) rfl
  · rw [Token.passedValue_append hAligned.settled]
    exact fun hPassed => hPassed.elim (Token.not_passedValue_of_comments hReverse) hAligned.clean

/-- At the end of the tokens the cursor without comments is at the end too. -/
theorem Aligned.rest_nil (hAligned : cursor.Aligned bare) (hRest : cursor.rest = []) :
    bare.rest = [] := by
  rw [hAligned.rest_eq, hRest, Token.withoutComments_nil]

/-- Moving on does not undo that a comment was taken for a value. -/
theorem Onward.passedValue {later : Cursor} (hOnward : cursor.Onward later)
    (hPassed : Token.PassedValue cursor.seen) : Token.PassedValue later.seen := by
  obtain ⟨_, _, used, _, hSeen⟩ := hOnward
  rw [hSeen]
  exact Token.passedValue_of_append hPassed

/-- A token that is not a comment comes next. -/
theorem beforeToken_of_cons (hRest : cursor.rest = token :: rest)
    (hComment : token.isComment = false) : cursor.BeforeToken := by
  intro first hFirst
  rw [hRest] at hFirst
  cases hFirst
  exact hComment

/-- Away from the end, a comment comes next or another token does. -/
theorem exists_comment_of_not_beforeToken (hNot : ¬cursor.BeforeToken) :
    ∃ comment later, cursor.rest = comment :: later ∧ comment.isComment = true := by
  cases hRest : cursor.rest with
  | nil => exact absurd (fun token hHead => by rw [hRest] at hHead; cases hHead) hNot
  | cons token later =>
      refine ⟨token, later, rfl, ?_⟩
      cases hComment : token.isComment with
      | true => rfl
      | false => exact absurd (beforeToken_of_cons hRest hComment) hNot

end Cursor

/-! ## The ends of runs -/

/-- What is said about the ends of two runs. -/
inductive Landing where
  /-- The cursors are aligned. -/
  | level
  /-- The cursors are aligned if a comment does not come next. -/
  | beforeToken
  /-- The cursors are aligned if the end of an option comes next. -/
  | beforeSeparator
  /-- The cursors are at most a semicolon apart. -/
  | nearby
  deriving DecidableEq

namespace Landing

/-- Whether anything is said about a run that ends at a cursor. -/
def Applies : Landing → Cursor → Prop
  | level, _ => True
  | beforeToken, cursor => cursor.BeforeToken
  | beforeSeparator, cursor => cursor.BeforeSeparator
  | nearby, _ => True

/-- What is said about the cursors where two runs end. -/
def Holds : Landing → Cursor → Cursor → Prop
  | nearby => Cursor.Near
  | _ => Cursor.Aligned

/-- Nothing stronger is said than that the cursors are aligned. -/
theorem Holds.of_aligned {cursor bare : Cursor} (landing : Landing)
    (hAligned : cursor.Aligned bare) : landing.Holds cursor bare := by
  cases landing with
  | nearby => exact .inl hAligned
  | _ => exact hAligned

/-- Apart from a semicolon, nothing weaker is said either. -/
theorem Holds.aligned {landing : Landing} {cursor bare : Cursor} (hNear : landing ≠ .nearby)
    (hHolds : landing.Holds cursor bare) : cursor.Aligned bare := by
  cases landing with
  | nearby => exact absurd rfl hNear
  | _ => exact hHolds

end Landing
end ProtoIdl
