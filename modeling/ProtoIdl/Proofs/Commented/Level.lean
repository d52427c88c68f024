import ProtoIdl.Proofs.Ahead.Lookahead
import ProtoIdl.Proofs.Local.Statement
import ProtoIdl.Proofs.Parser.Block
import ProtoIdl.Proofs.Trace.Alike

/-!
# Readings at one level

`parser.ReadsAt depth limit ahead value later` describes a successful run by its tokens and by the
level where it takes place.  Such readings are composed like those of `Parser.Reads`, and they can
be taken from one run: where in the stream a parser stands does not matter to it.

A step that is `Detached` does not depend on what comes after its tokens either, so one run of it
tells how it reads the same tokens in front of any others (`Detached.readsAt`).  Only a semicolon is
not always left: some steps take one that follows.
-/

namespace ProtoIdl
namespace Parser

/-- At the depth and under the limit, with `ahead` in front of it, the parser answers `value`,
leaves `later`, and is back at the depth. -/
def ReadsAt (parser : Parser α) (depth limit : Nat) (ahead : List Token) (value : α)
    (later : List Token) : Prop :=
  ∀ cursor : Cursor, cursor.rest = ahead → cursor.depth = depth → cursor.limit = limit →
    ∃ after, parser.run cursor = .ok value after ∧ after.rest = later ∧ after.depth = depth

variable {depth limit : Nat} {ahead middle later : List Token}

/-- What is read wherever some levels are open is read at every level with as many. -/
theorem Reads.readsAt {parser : Parser α} {levels : Nat} {value : α}
    (hReads : parser.Reads levels ahead value later) (hLevels : depth + levels ≤ limit) :
    parser.ReadsAt depth limit ahead value later := by
  rintro cursor hRest rfl rfl
  exact hReads cursor hRest hLevels

/-- What is read with no level open is read at every level. -/
theorem Reads.here {parser : Parser α} {value : α} (hReads : parser.Reads 0 ahead value later)
    (hLevel : depth ≤ limit) : parser.ReadsAt depth limit ahead value later :=
  hReads.readsAt hLevel

namespace ReadsAt

theorem pure (value : α) : (pure value : Parser α).ReadsAt depth limit ahead value ahead :=
  fun cursor hRest hDepth _ => ⟨cursor, rfl, hRest, hDepth⟩

/-- The second parser reads what the first one leaves. -/
theorem bind {first : Parser α} {second : α → Parser β} {inner : α} {value : β}
    (hFirst : first.ReadsAt depth limit ahead inner middle)
    (hSecond : (second inner).ReadsAt depth limit middle value later) :
    (first >>= second).ReadsAt depth limit ahead value later := by
  intro cursor hRest hDepth hLimit
  obtain ⟨between, hRun, hMiddle, hBetween⟩ := hFirst cursor hRest hDepth hLimit
  obtain ⟨after, hRun', hLater, hAfter⟩ :=
    hSecond between hMiddle hBetween ((onward_of_ok hRun).limit_eq.trans hLimit)
  exact ⟨after, run_bind_eq_ok_iff.mpr ⟨inner, between, hRun, hRun'⟩, hLater, hAfter⟩

/-- A change of the answer changes nothing else. -/
theorem map {parser : Parser α} {value : α}
    (hParser : parser.ReadsAt depth limit ahead value later) (change : α → β) :
    (change <$> parser).ReadsAt depth limit ahead (change value) later := by
  rw [map_eq_pure_bind]
  exact hParser.bind (.pure _)

/-- A computation without tokens reads nothing. -/
theorem ofExcept {result : Except ParseError α} {value : α} (hResult : result = .ok value) :
    (Parser.ofExcept result).ReadsAt depth limit ahead value ahead := by
  rw [hResult]
  exact .pure value

/-- A run that is back at its depth tells what is read at this level. -/
theorem of_run {parser : Parser α} {cursor after : Cursor} {value : α}
    (hTraced : parser.Traced cursor) (hRun : parser.run cursor = .ok value after)
    (hDepth : after.depth = cursor.depth) :
    parser.ReadsAt cursor.depth cursor.limit cursor.rest value after.rest := by
  intro other hRest hOther hLimit
  obtain ⟨last, hSame, hLast⟩ := hTraced.answersAlike ⟨hRest, hOther, hLimit⟩ value after hRun
  exact ⟨last, hSame, hLast.rest_eq, hLast.depth_eq.trans hDepth⟩

/-- The inside of a block is read one level down, and what it leaves is left out. -/
theorem inside {body : Parser α} {value : α} {block rest : List Token}
    (hSplit : Cursor.splitBlock? 0 ahead = some (block, later)) (hOpen : depth < limit)
    (hBody : body.ReadsAt (depth + 1) limit block value rest) (context : String) :
    (inside context body).ReadsAt depth limit ahead value later := by
  rintro cursor rfl rfl rfl
  obtain ⟨last, hRun, -, -⟩ := hBody (blockCursor cursor block) rfl rfl rfl
  refine ⟨blockEnd cursor block later, ?_, rfl, rfl⟩
  rw [run_inside context body hSplit hOpen, hRun]

end ReadsAt

/-! ## Steps that stand by themselves -/

/-- Neither the place of its tokens in the stream nor what follows them matters to the parser, a
semicolon apart.  It may look at the token that has been passed last. -/
structure Detached (parser : Parser α) : Prop where
  traced : ∀ cursor : Cursor, cursor.seen ≠ [] → parser.Traced cursor
  closed : ∀ cursor : Cursor, cursor.seen ≠ [] → Closed parser cursor
  looksAhead : ∀ cursor, parser.LooksAhead 0 cursor

namespace Detached

variable {parser : Parser α} {cursor after : Cursor} {value : α} {used other : List Token}

/-- What is left can be replaced behind the first of its tokens, and altogether unless a semicolon
comes first then. -/
theorem run_replace (hParser : Detached parser) (hSeen : cursor.seen ≠ [])
    (hRun : parser.run cursor = .ok value after) (kept : List Token) {rest : List Token}
    (hUsed : cursor.rest = used ++ (kept ++ rest)) (hRest : after.rest = kept ++ rest)
    (hOther : kept = [] → other.head? ≠ some ";") :
    ∃ stop, parser.run { cursor with rest := used ++ (kept ++ other) } = .ok value stop ∧
      stop.rest = kept ++ other ∧ stop.depth = after.depth := by
  obtain ⟨short, hShort⟩ : ∃ short : Cursor, short = { cursor with rest := used ++ kept } :=
    ⟨_, rfl⟩
  have hLong : short.extended rest = cursor := by
    rw [hShort, Cursor.extended, List.append_assoc, ← hUsed]
  have hLeft : rest.length + 0 ≤ after.left := by
    rw [Cursor.left, hRest, List.length_append]
    omega
  have hOriginal : parser.run (short.extended rest) = .ok value after := by rw [hLong, hRun]
  obtain ⟨stop, rfl, hStop⟩ := hParser.looksAhead short rest value after hOriginal hLeft
  have hKept : stop.rest = kept := List.append_cancel_right hRest
  have hPassed : short.seen ≠ [] := by rw [hShort]; exact hSeen
  have hNew : short.extended other = { cursor with rest := used ++ (kept ++ other) } := by
    rw [hShort, Cursor.extended, List.append_assoc]
  rcases (hParser.closed short hPassed).ok hStop other with hSame | ⟨hNil, tail, rfl, -⟩
  · refine ⟨stop.extended other, ?_, ?_, rfl⟩
    · rw [← hNew, hSame]
    · rw [Cursor.rest_extended, hKept]
  · -- the step has taken a semicolon, which it would not find
    exact absurd rfl (hOther (hKept.symm.trans hNil))

/-- The same tokens are read in the same way in front of any others, except that a semicolon must
not come first where none did. -/
theorem readsAt (hParser : Detached parser) (hSeen : cursor.seen ≠ [])
    (hRun : parser.run cursor = .ok value after) (hDepth : after.depth = cursor.depth)
    (hUsed : cursor.rest = used ++ after.rest)
    (hOther : other.head? = some ";" → after.rest.head? = some ";") :
    parser.ReadsAt cursor.depth cursor.limit (used ++ other) value other := by
  have hStop : ∃ stop, parser.run { cursor with rest := used ++ other } = .ok value stop ∧
      stop.rest = other ∧ stop.depth = after.depth := by
    by_cases hHead : other.head? = some ";"
    · -- the semicolon is left as before
      obtain ⟨tail, rfl⟩ := List.head?_eq_some_iff.mp hHead
      obtain ⟨rest, hRest⟩ := List.head?_eq_some_iff.mp (hOther hHead)
      rw [hRest] at hUsed
      exact hParser.run_replace hSeen hRun [";"] hUsed hRest fun hNil => nomatch hNil
    · exact hParser.run_replace hSeen hRun [] hUsed rfl fun _ => hHead
  obtain ⟨stop, hAnswer, hRest, hLevel⟩ := hStop
  have hTraced := hParser.traced { cursor with rest := used ++ other } hSeen
  have hReads := ReadsAt.of_run hTraced hAnswer (hLevel.trans hDepth)
  rwa [hRest] at hReads

end Detached

end Parser
end ProtoIdl
