import ProtoIdl.Grammar.OptionMap
import ProtoIdl.Proofs.OptionMap.Calls
import ProtoIdl.Proofs.RoundTrip.Word

/-!
# Entries of an option map and how they are written

An option map is written as a sequence of entries.  Each entry has a key and either a literal
or a nested map, and a nested map is a value after a colon or one of the blocks of its key.
`OptionEntry.meaning` is the map that the entries stand for.

`Written` tells all the ways of writing the entries: keys with and without parentheses, commas
and semicolons between entries or none, and comments wherever they may stand.  `Clashes` tells
which keys are repeated otherwise than block after block.
-/

namespace ProtoIdl

/-- An entry of an option map: a key with a literal or with a nested map. -/
inductive OptionEntry where
  | literal (key : String) (token : Token)
  | nested (form : Grammar.NestedForm) (key : String) (entries : List OptionEntry)

namespace OptionEntry

/-! ## What entries stand for -/

/-- The key of the entry. -/
def key : OptionEntry → String
  | literal key _ => key
  | nested _ key _ => key

/-- Whether the entry gives a block. -/
def IsBlock : OptionEntry → Prop
  | nested .block _ _ => True
  | _ => False

mutual

/-- What the entry adds to the map around it. -/
def call : OptionEntry → OptionMap.Call
  | literal key token => .bind key (.ofLiteral token)
  | nested .value key entries => .bind key (.map (OptionMap.collected (calls entries)))
  | nested .block key entries => .pushBlock key (OptionMap.collected (calls entries))

/-- What the entries add, one by one. -/
def calls : List OptionEntry → List OptionMap.Call
  | [] => []
  | entry :: rest => entry.call :: calls rest

end

/-- The map that the entries stand for: its keys are in the order of their first entries, a key
with a colon has its value, and a key with blocks has the list of these. -/
def meaning (entries : List OptionEntry) : OptionMap :=
  OptionMap.collected (calls entries)

mutual

/-- The number of levels that the value of the entry takes. -/
def nesting : OptionEntry → Nat
  | literal _ _ => 0
  | nested _ _ entries => nestingIn entries + 1

/-- The number of levels that the values of the entries take. -/
def nestingIn : List OptionEntry → Nat
  | [] => 0
  | entry :: rest => max entry.nesting (nestingIn rest)

end

/-! ## Ways of writing -/

/-- The key of an entry stands alone or in parentheses. -/
inductive WrittenKey (key : Token) : List Token → Prop
  | bare : WrittenKey key [key]
  | parenthesized : WrittenKey key ["(", key, ")"]

/-- Tokens without meaning where an entry could start: comments, commas and semicolons. -/
def IsGap (tokens : List Token) : Prop :=
  ∀ token ∈ tokens, token.isComment = true ∨ token = "," ∨ token = ";"

/-- Tokens that are all comments. -/
def AllComments (tokens : List Token) : Prop :=
  ∀ token ∈ tokens, token.isComment = true

/-- The tokens are a way of writing the entries, without the braces around them. -/
inductive Written : List OptionEntry → List Token → Prop
  | done {gap : List Token} (hGap : IsGap gap) : Written [] gap
  | literal {key literal : Token} {gap keyTokens before after tokens : List Token}
      {rest : List OptionEntry} (hGap : IsGap gap) (hKey : IsWord key)
      (hKeyTokens : WrittenKey key keyTokens) (hBefore : AllComments before)
      (hAfter : AllComments after) (hLiteral : IsWord literal) (hRest : Written rest tokens) :
      Written (.literal key literal :: rest)
        (gap ++ (keyTokens ++ (before ++ ":" :: (after ++ literal :: tokens))))
  | value {key : Token} {gap keyTokens before after innerTokens tokens : List Token}
      {inner rest : List OptionEntry} (hGap : IsGap gap) (hKey : IsWord key)
      (hKeyTokens : WrittenKey key keyTokens) (hBefore : AllComments before)
      (hAfter : AllComments after) (hInner : Written inner innerTokens)
      (hRest : Written rest tokens) :
      Written (.nested .value key inner :: rest)
        (gap ++ (keyTokens ++ (before ++ ":" :: (after ++ Token.openBrace ::
          (innerTokens ++ Token.closeBrace :: tokens)))))
  | block {key : Token} {gap keyTokens before innerTokens tokens : List Token}
      {inner rest : List OptionEntry} (hGap : IsGap gap) (hKey : IsWord key)
      (hKeyTokens : WrittenKey key keyTokens) (hBefore : AllComments before)
      (hInner : Written inner innerTokens) (hRest : Written rest tokens) :
      Written (.nested .block key inner :: rest)
        (gap ++ (keyTokens ++ (before ++ Token.openBrace ::
          (innerTokens ++ Token.closeBrace :: tokens))))

/-! ## Repeated keys -/

/-- In the map of the entries, or in a map nested in it, the key is given twice, and not both
times with a block. -/
inductive Clashes (key : String) : List OptionEntry → Prop
  | here {entries : List OptionEntry} {first second : OptionEntry}
      (hBoth : [first, second].Sublist entries) (hFirst : first.key = key)
      (hSecond : second.key = key) (hForms : ¬(first.IsBlock ∧ second.IsBlock)) :
      Clashes key entries
  | inside {form : Grammar.NestedForm} {other : String} {inner entries : List OptionEntry}
      (hMem : .nested form other inner ∈ entries) (hInner : Clashes key inner) :
      Clashes key entries

/-! ## Facts about entries -/

theorem calls_eq_map (entries : List OptionEntry) : calls entries = entries.map call := by
  induction entries with
  | nil => rfl
  | cons entry rest ih => rw [calls, ih, List.map_cons]

theorem meaning_eq (entries : List OptionEntry) :
    meaning entries = OptionMap.afterCalls (entries.map call) := by
  rw [meaning, calls_eq_map, OptionMap.afterCalls_eq_collected]

theorem meaning_concat (entries : List OptionEntry) (entry : OptionEntry) :
    meaning (entries ++ [entry]) = (meaning entries).afterCall entry.call := by
  rw [meaning_eq, meaning_eq, List.map_append, List.map_singleton, OptionMap.afterCalls_concat]

@[simp] theorem key_call (entry : OptionEntry) : entry.call.key = entry.key := by
  rcases entry with ⟨key, token⟩ | ⟨_ | _, key, entries⟩ <;> rw [call] <;> rfl

theorem mem_keys_meaning {key : String} {entries : List OptionEntry} :
    key ∈ (meaning entries).keys ↔ ∃ entry ∈ entries, entry.key = key := by
  rw [meaning_eq, OptionMap.mem_keys_afterCalls, List.map_map, List.mem_map]
  simp

/-- An entry with a colon binds its key to a single value. -/
theorem exists_call_eq_bind {entry : OptionEntry} (hForm : ¬entry.IsBlock) :
    ∃ value, entry.call = .bind entry.key value ∧ value.asList? = none := by
  rcases entry with ⟨key, token⟩ | ⟨_ | _, key, entries⟩
  · refine ⟨.ofLiteral token, by rw [call]; rfl, ?_⟩
    unfold OptionValue.ofLiteral
    split
    · rfl
    · split <;> rfl
  · exact ⟨_, by rw [call]; rfl, rfl⟩
  · exact absurd trivial hForm

/-- An entry without a colon adds a block. -/
theorem exists_call_eq_pushBlock {entry : OptionEntry} (hForm : entry.IsBlock) :
    ∃ block, entry.call = .pushBlock entry.key block := by
  rcases entry with ⟨key, token⟩ | ⟨_ | _, key, entries⟩
  · exact absurd hForm not_false
  · exact absurd hForm not_false
  · exact ⟨_, by rw [call]; rfl⟩

/-- Where no key clashes, a key with a colon has the value of its one entry. -/
theorem get?_meaning_of_single {entries : List OptionEntry} {entry : OptionEntry}
    (hClean : ∀ key, ¬Clashes key entries) (hMem : entry ∈ entries) (hForm : ¬entry.IsBlock) :
    ∃ value, (meaning entries).get? entry.key = some value ∧ value.asList? = none := by
  obtain ⟨value, hCall, hSingle⟩ := exists_call_eq_bind hForm
  obtain ⟨before, after, rfl⟩ := List.append_of_mem hMem
  refine ⟨value, ?_, hSingle⟩
  -- a second entry of the key would clash, on either side
  have hBefore : entry.key ∉ (meaning before).keys := by
    rw [mem_keys_meaning]
    rintro ⟨first, hFirst, hSame⟩
    refine hClean entry.key (.here ?_ hSame rfl fun hBoth => hForm hBoth.2)
    exact (List.singleton_sublist.mpr hFirst).append
      (List.singleton_sublist.mpr List.mem_cons_self)
  have hAfter : entry.key ∉ (after.map call).map OptionMap.Call.key := by
    rw [List.map_map, List.mem_map]
    rintro ⟨second, hSecond, hSame⟩
    refine hClean entry.key (.here ?_ rfl ((key_call second).symm.trans hSame)
      fun hBoth => hForm hBoth.1)
    exact List.sublist_append_of_sublist_right
      ((List.singleton_sublist.mpr hSecond).cons_cons entry)
  rw [meaning_eq] at hBefore
  rw [meaning_eq, List.map_append, List.map_cons, hCall]
  refine (OptionMap.get?_of_introduced (.bind entry.key value) hBefore _).trans ?_
  rw [OptionMap.Call.key_bind, ← List.singleton_append, OptionMap.blocksFor_append,
    OptionMap.blocksFor_bind, OptionMap.blocksFor_eq_nil hAfter, List.append_nil,
    OptionValue.joined_nil]
  rfl

theorem not_clashes_nil (key : String) : ¬Clashes key [] := by
  rintro (⟨hBoth, -, -, -⟩ | ⟨hMem, -⟩)
  · exact absurd (List.sublist_nil.mp hBoth) (List.cons_ne_nil _ _)
  · exact absurd hMem List.not_mem_nil

/-- The entry repeats the key of another one, and not block after block. -/
def Repeats (entry : OptionEntry) (entries : List OptionEntry) : Prop :=
  ∃ first ∈ entries, first.key = entry.key ∧ ¬(first.IsBlock ∧ entry.IsBlock)

theorem Repeats.clashes {entry : OptionEntry} {done : List OptionEntry}
    (hRepeats : entry.Repeats done) (rest : List OptionEntry) :
    Clashes entry.key (done ++ entry :: rest) := by
  obtain ⟨first, hFirst, hSame, hForms⟩ := hRepeats
  exact .here ((List.singleton_sublist.mpr hFirst).append
    (List.singleton_sublist.mpr List.mem_cons_self)) hSame rfl hForms

/-- A key clashes after one more entry only if it did before, if the entry repeats it, or if it
clashes inside the entry. -/
theorem not_clashes_concat {done : List OptionEntry} {entry : OptionEntry}
    (hClean : ∀ key, ¬Clashes key done) (hNew : ¬entry.Repeats done)
    (hInner : ∀ form other inner, entry = .nested form other inner → ∀ key, ¬Clashes key inner) :
    ∀ key, ¬Clashes key (done ++ [entry]) := by
  intro key hClashes
  cases hClashes with
  | @here _ first second hBoth hFirst hSecond hForms =>
      obtain ⟨one, two, hSplit, hOne, hTwo⟩ := List.sublist_append_iff.mp hBoth
      rcases List.sublist_singleton.mp hTwo with rfl | rfl
      · rw [List.append_nil] at hSplit
        exact hClean key (.here (hSplit ▸ hOne) hFirst hSecond hForms)
      · have hPair : [first] ++ [second] = one ++ [entry] := hSplit
        obtain ⟨rfl, hLast⟩ := List.append_inj' hPair rfl
        cases hLast
        exact hNew ⟨first, List.singleton_sublist.mp hOne, hFirst.trans hSecond.symm, hForms⟩
  | inside hMem hInside =>
      rcases List.mem_append.mp hMem with hDone | hLast
      · exact hClean key (.inside hDone hInside)
      · exact hInner _ _ _ (List.mem_singleton.mp hLast).symm key hInside

/-- An entry that is refused repeats another one. -/
theorem repeats_of_refused {entry : OptionEntry} {done : List OptionEntry}
    (hRefused : entry.call.Refused (meaning done)) : entry.Repeats done := by
  have hMem : entry.key ∈ (meaning done).keys := by
    by_contra hNew
    rw [← key_call] at hNew
    rw [OptionMap.Call.Refused, OptionMap.apply_of_not_mem hNew] at hRefused
    cases hRefused
  by_contra hNone
  have hBlocks : ∀ first ∈ done, first.key = entry.key → first.IsBlock ∧ entry.IsBlock := by
    intro first hFirst hSame
    by_contra hForms
    exact hNone ⟨first, hFirst, hSame, hForms⟩
  obtain ⟨first, hFirst, hSame⟩ := mem_keys_meaning.mp hMem
  obtain ⟨block, hCall⟩ := exists_call_eq_pushBlock (hBlocks first hFirst hSame).2
  -- all entries of the key give blocks, so the key holds a list
  have hPushes : ∀ added ∈ done.map call, added.key = entry.key →
      ∃ block, added = .pushBlock entry.key block := by
    intro added hMem hKey
    obtain ⟨other, hOther, rfl⟩ := List.mem_map.mp hMem
    rw [key_call] at hKey
    exact hKey ▸ exists_call_eq_pushBlock (hBlocks other hOther hKey).1
  rw [meaning_eq] at hMem hRefused
  rw [hCall, OptionMap.Call.Refused,
    OptionMap.apply_pushBlock (OptionMap.get?_of_pushes hPushes hMem)] at hRefused
  cases hRefused

/-- One more entry is added to the meaning of the entries before it just if it does not repeat
one of them. -/
theorem apply_call_meaning {done : List OptionEntry} (hClean : ∀ key, ¬Clashes key done)
    (entry : OptionEntry) :
    (entry.Repeats done ∧ entry.call.Refused (meaning done)) ∨
      ¬entry.Repeats done ∧ entry.call.apply (meaning done) = .ok (meaning (done ++ [entry])) := by
  by_cases hRepeats : entry.Repeats done
  · refine .inl ⟨hRepeats, ?_⟩
    obtain ⟨first, hFirst, hSame, hForms⟩ := hRepeats
    by_cases hBlock : entry.IsBlock
    · -- the block comes after a single value
      obtain ⟨block, hCall⟩ := exists_call_eq_pushBlock hBlock
      obtain ⟨value, hHeld, hSingle⟩ :=
        get?_meaning_of_single hClean hFirst fun hBoth => hForms ⟨hBoth, hBlock⟩
      rw [hCall]
      exact OptionMap.refused_pushBlock (hSame ▸ hHeld) hSingle block
    · obtain ⟨value, hCall, -⟩ := exists_call_eq_bind hBlock
      obtain ⟨held, hHeld⟩ : ∃ held, (meaning done).get? entry.key = some held := by
        refine Option.ne_none_iff_exists'.mp fun hNone => ?_
        exact (OptionMap.get?_eq_none_iff _ _).mp hNone (mem_keys_meaning.mpr ⟨first, hFirst, hSame⟩)
      rw [hCall]
      exact OptionMap.refused_bind hHeld value
  · refine .inr ⟨hRepeats, ?_⟩
    rcases OptionMap.apply_cases (meaning done) entry.call with ⟨grown, hCall⟩ | hRefused
    · rw [hCall, meaning_concat, OptionMap.afterCall_of_ok hCall]
    · exact absurd (repeats_of_refused hRefused) hRepeats

end OptionEntry
end ProtoIdl
