import ProtoIdl.Proofs.OptionMap.Entry
import ProtoIdl.Proofs.RoundTrip.Option

/-!
# Reading entries, however they are written

All the ways of writing the entries of an option map are read to the same map, the meaning of
the entries.  The reading fails exactly if a key is repeated otherwise than block after block,
in the map or in a map nested in it, and the error names such a key.
-/

namespace ProtoIdl
namespace Parser

/-- A comment that is dropped may as well have been passed before. -/
theorem run_takeComments_past {second : Parser β} {cursor : Cursor} {token : Token}
    {rest : List Token} (hComment : token.isComment = true) (hRest : cursor.rest = token :: rest) :
    (takeComments >>= fun _ => second).run cursor =
      (takeComments >>= fun _ => second).run (cursor.past token rest) := by
  simp [run_bind, takeComments, Cursor.past, hRest, hComment]

end Parser

namespace Grammar

open ProtoIdl.Parser OptionEntry

variable {levels : Nat} {ahead rest later : List Token} {options : OptionMap} {key : String}

/-! ## Between entries -/

/-- What may stand between entries is passed over. -/
theorem entries_goesOn_gap {gap : List Token} (hGap : IsGap gap) (options : OptionMap) :
    (entries options).GoesOn levels (gap ++ ahead) (entries options) ahead := by
  induction gap with
  | nil => exact .refl _
  | cons token gap ih =>
      have hRest := ih fun other hMem => hGap other (List.mem_cons_of_mem token hMem)
      refine .trans ?_ hRest
      rcases hGap token List.mem_cons_self with hComment | hSeparator
      · intro cursor hAhead _
        refine ⟨cursor.past token (gap ++ ahead), rfl, rfl, rfl, ?_⟩
        have hSame : (mapEntry options).run cursor =
            (mapEntry options).run (cursor.past token (gap ++ ahead)) :=
          run_takeComments_past hComment hAhead
        rw [entries_eq, run_bind, run_bind, hSame]
      · have hToken : token.isComment = false ∧ token ≠ Token.closeBrace := by
          rcases hSeparator with rfl | rfl <;> decide
        have hEntry : (mapEntry options).Reads levels (token :: (gap ++ ahead)) .separator
            (gap ++ ahead) := by
          refine .bind (reads_no_comments hToken.1) (.bind (reads_next token _ _) ?_)
          rw [if_neg hToken.2, if_pos hSeparator]
          exact .pure _
        rw [List.cons_append]
        nth_rewrite 1 [entries_eq]
        exact .bind hEntry

/-! ## Keys and values -/

/-- A key is read in either form. -/
theorem mapEntry_goesOn_key {keyTokens : List Token} (hKey : IsWord key)
    (hKeyTokens : WrittenKey key keyTokens) (options : OptionMap) :
    (mapEntry options).GoesOn levels (keyTokens ++ ahead) (entryValue options key) ahead := by
  cases hKeyTokens with
  | bare => exact mapEntry_goesOn_word hKey options
  | parenthesized =>
      have hEntryKey : (entryKey "(").Reads levels (key :: ")" :: ahead) key ahead := by
        rw [entryKey, if_pos rfl]
        exact .bind (reads_word hKey _ _) (.bind (reads_expect ")" _) (.pure key))
      refine .trans (.bind (reads_no_comments (by decide))) (.trans (.bind (reads_next "(" _ _)) ?_)
      rw [if_neg (by decide), if_neg (by decide)]
      exact .bind hEntryKey

/-- A colon after a key that is taken is refused, before the value is read. -/
theorem entryValue_failsOn {before : List Token} (hBefore : AllComments before)
    (hTaken : key ∈ options.keys) :
    (entryValue options key).FailsOn levels (before ++ ":" :: rest)
      (.duplicate .optionMapKey key) := by
  refine GoesOn.failsOn (.trans (.bind (reads_commentsBefore hBefore (by decide)))
    (.bind (reads_next ":" _ _))) ?_
  rw [if_pos rfl, if_pos (OptionMap.contains_eq_true hTaken)]
  exact failsOn_fail _

/-! ## Entries -/

/-- A fault inside a nested map is the fault of the map. -/
theorem failsOn_optionMap {fault : ParseError}
    (hInner : (entries ∅).FailsOn levels ahead fault) :
    optionMap.FailsOn (levels + 1) ahead fault := by
  intro cursor hAhead hLevels
  obtain ⟨after, hRun⟩ := hInner (entered cursor) hAhead (by simp only [entered]; omega)
  rw [optionMap, run_level_eq, if_pos (by omega), hRun]
  exact ⟨after, rfl⟩

/-- The parser reads the tokens to the meaning of the entries, or it fails at a key that clashes
in the entries. -/
def ComesTo (parser : Parser OptionMap) (levels : Nat) (ahead : List Token)
    (entries : List OptionEntry) (later : List Token) : Prop :=
  (∃ key, Clashes key entries ∧ parser.FailsOn levels ahead (.duplicate .optionMapKey key)) ∨
    (∀ key, ¬Clashes key entries) ∧ parser.Reads levels ahead (meaning entries) later

theorem ComesTo.of_goesOn {first second : Parser OptionMap} {middle : List Token}
    {entries : List OptionEntry} (hFirst : first.GoesOn levels ahead second middle)
    (hSecond : ComesTo second levels middle entries later) :
    ComesTo first levels ahead entries later := by
  rcases hSecond with ⟨key, hClash, hFails⟩ | ⟨hClean, hReads⟩
  · exact .inl ⟨key, hClash, hFirst.failsOn hFails⟩
  · exact .inr ⟨hClean, hFirst.reads hReads⟩

theorem ComesTo.optionMap {inner : List OptionEntry}
    (hInner : ComesTo (entries ∅) levels ahead inner later) :
    ComesTo optionMap (levels + 1) ahead inner later := by
  rcases hInner with ⟨key, hClash, hFails⟩ | ⟨hClean, hReads⟩
  · exact .inl ⟨key, hClash, failsOn_optionMap hFails⟩
  · exact .inr ⟨hClean, reads_optionMap hReads⟩

/-- An entry that repeats another one is refused, and what follows does not matter. -/
theorem ComesTo.of_repeats {parser : Parser OptionMap} {entry : OptionEntry}
    {done todo : List OptionEntry} (hRepeats : entry.Repeats done)
    (hFails : parser.FailsOn levels ahead (.duplicate .optionMapKey entry.key)) :
    ComesTo parser levels ahead (done ++ entry :: todo) later :=
  .inl ⟨entry.key, hRepeats.clashes todo, hFails⟩

/-- A nested map is stored as its entry tells. -/
theorem store_eq_apply (form : NestedForm) (key : String) (inner : List OptionEntry)
    (options : OptionMap) :
    form.store options key (meaning inner) = (nested form key inner).call.apply options := by
  cases form <;> rw [call] <;> rfl

/-- A nested map is read and added, unless it repeats a key or has a clash inside. -/
theorem ComesTo.nested {form : NestedForm} {inner done todo : List OptionEntry}
    {middle : List Token} (hClean : ∀ key, ¬Clashes key done)
    (hHead : (mapEntry (meaning done)).Reads levels ahead (.nested form key) middle)
    (hInner : ComesTo Grammar.optionMap levels middle inner rest)
    (hNew : form = .value → ¬(nested form key inner).Repeats done)
    (hRest : (∀ other, ¬Clashes other (done ++ [.nested form key inner])) →
      ComesTo (entries (meaning (done ++ [.nested form key inner]))) levels rest
        (done ++ .nested form key inner :: todo) later) :
    ComesTo (entries (meaning done)) levels ahead (done ++ .nested form key inner :: todo)
      later := by
  rw [entries_eq]
  refine .of_goesOn (.bind hHead) ?_
  rcases hInner with ⟨other, hClash, hFails⟩ | ⟨hInner, hReads⟩
  · exact .inl ⟨other, .inside (List.mem_append_right done List.mem_cons_self) hClash,
      hFails.bind _⟩
  · refine .of_goesOn (.bind hReads) ?_
    rw [store_eq_apply]
    rcases apply_call_meaning hClean (.nested form key inner) with ⟨hRepeats, hRefused⟩ |
      ⟨hSingle, hAdded⟩
    · -- a value with a colon would have been refused before it was read
      cases form with
      | value => exact absurd hRepeats (hNew rfl)
      | block =>
          refine .of_repeats hRepeats ?_
          rw [hRefused, call]
          exact (failsOn_fail _).bind _
    · rw [hAdded]
      refine hRest (not_clashes_concat hClean hSingle ?_)
      rintro _ _ _ ⟨⟩
      exact hInner

/-- A colon after a key that is taken is refused. -/
theorem ComesTo.of_taken (entry : OptionEntry) {done todo : List OptionEntry}
    {keyTokens before : List Token} (hKey : IsWord entry.key)
    (hKeyTokens : WrittenKey entry.key keyTokens) (hBefore : AllComments before)
    (hForm : ¬entry.IsBlock) (hTaken : entry.key ∈ (meaning done).keys) :
    ComesTo (entries (meaning done)) levels (keyTokens ++ (before ++ ":" :: rest))
      (done ++ entry :: todo) later := by
  obtain ⟨first, hFirst, hSame⟩ := mem_keys_meaning.mp hTaken
  refine .of_repeats ⟨first, hFirst, hSame, fun hBoth => hForm hBoth.2⟩ ?_
  rw [entries_eq]
  exact ((mapEntry_goesOn_key hKey hKeyTokens _).failsOn (entryValue_failsOn hBefore hTaken)).bind _

/-- A new key is not repeated. -/
theorem not_repeats_of_new (entry : OptionEntry) {done : List OptionEntry}
    (hNew : entry.key ∉ (meaning done).keys) : ¬entry.Repeats done :=
  fun ⟨first, hFirst, hSame, _⟩ => hNew (mem_keys_meaning.mpr ⟨first, hFirst, hSame⟩)

/-- Further entries are read after those that have been read, in whatever way they are written. -/
theorem comesTo_of_written {todo : List OptionEntry} {tokens : List Token}
    (hWritten : Written todo tokens) (done : List OptionEntry) (hClean : ∀ key, ¬Clashes key done)
    (hLevels : nestingIn todo ≤ levels) (later : List Token) :
    ComesTo (entries (meaning done)) levels (tokens ++ Token.closeBrace :: later) (done ++ todo)
      later := by
  induction hWritten generalizing done levels later with
  | done hGap =>
      rw [List.append_nil]
      exact .of_goesOn (entries_goesOn_gap hGap _) (.inr ⟨hClean, reads_entries_close _⟩)
  | @literal key token gap keyTokens before after tokens rest hGap hKey hKeyTokens hBefore hAfter
      hLiteral hRest ih =>
      rw [nestingIn, Nat.max_le] at hLevels
      simp only [List.append_assoc, List.cons_append]
      refine .of_goesOn (entries_goesOn_gap hGap _) ?_
      -- a key with a colon must be new
      by_cases hTaken : key ∈ (meaning done).keys
      · exact .of_taken (.literal key token) hKey hKeyTokens hBefore not_false hTaken
      · have hNew := not_repeats_of_new (.literal key token) hTaken
        have hAdded := (apply_call_meaning hClean (.literal key token)).resolve_left
          fun hBoth => hNew hBoth.1
        have hGrown : ∀ other, ¬Clashes other (done ++ [.literal key token]) := by
          refine not_clashes_concat hClean hNew ?_
          rintro _ _ _ ⟨⟩
        have hLater := ih (done ++ [.literal key token]) hGrown hLevels.2 later
        rw [entries_eq]
        refine .of_goesOn (.bind ((mapEntry_goesOn_key hKey hKeyTokens _).reads
          (reads_entryValue_literal hBefore hAfter hTaken hLiteral))) ?_
        have hBind : (meaning done).bind key (.ofLiteral token) =
            .ok (meaning (done ++ [.literal key token])) := by
          have hCall := hAdded.2
          rwa [call] at hCall
        dsimp only
        rw [hBind]
        rwa [List.append_assoc, List.singleton_append] at hLater
  | @value key gap keyTokens before after innerTokens tokens inner rest hGap hKey hKeyTokens hBefore
      hAfter hInner hRest ihInner ihRest =>
      rw [nestingIn, nesting, Nat.max_le] at hLevels
      obtain ⟨levels, rfl⟩ : ∃ fewer, levels = fewer + 1 := ⟨levels - 1, by omega⟩
      simp only [List.append_assoc, List.cons_append]
      refine .of_goesOn (entries_goesOn_gap hGap _) ?_
      by_cases hTaken : key ∈ (meaning done).keys
      · exact .of_taken (.nested .value key inner) hKey hKeyTokens hBefore not_false hTaken
      · refine .nested hClean ((mapEntry_goesOn_key hKey hKeyTokens _).reads
          (reads_entryValue_map hBefore hAfter hTaken))
          (ihInner [] (not_clashes_nil) (by omega) _).optionMap
          (fun _ => not_repeats_of_new _ hTaken) fun hGrown => ?_
        have hLater := ihRest _ hGrown hLevels.2 later
        rwa [List.append_assoc, List.singleton_append] at hLater
  | @block key gap keyTokens before innerTokens tokens inner rest hGap hKey hKeyTokens hBefore
      hInner hRest ihInner ihRest =>
      rw [nestingIn, nesting, Nat.max_le] at hLevels
      obtain ⟨levels, rfl⟩ : ∃ fewer, levels = fewer + 1 := ⟨levels - 1, by omega⟩
      simp only [List.append_assoc, List.cons_append]
      refine .of_goesOn (entries_goesOn_gap hGap _) ?_
      -- a block may join the blocks of its key, and whether it clashes is seen after it is read
      refine .nested hClean ((mapEntry_goesOn_key hKey hKeyTokens _).reads
        (reads_entryValue_block hBefore)) (ihInner [] (not_clashes_nil) (by omega) _).optionMap
        (by rintro ⟨⟩) fun hGrown => ?_
      have hLater := ihRest _ hGrown hLevels.2 later
      rwa [List.append_assoc, List.singleton_append] at hLater

/-! ## Option maps -/

/-- However its entries are written, an option map is read through its closing brace to what the
entries mean, and back to its level, unless a key clashes in it.  If a key does, the reading fails
at a key that clashes. -/
theorem run_optionMap_of_written {written : List OptionEntry} {tokens later : List Token}
    {cursor : Cursor} (hWritten : Written written tokens)
    (hRest : cursor.rest = tokens ++ Token.closeBrace :: later)
    (hLevels : cursor.depth + (nestingIn written + 1) ≤ cursor.limit) :
    ((∀ key, ¬Clashes key written) →
        ∃ after, optionMap.run cursor = .ok (meaning written) after ∧ after.rest = later ∧
          after.depth = cursor.depth) ∧
      ((∃ key, Clashes key written) →
        ∃ key, Clashes key written ∧
          (optionMap.run cursor).Fails (.duplicate .optionMapKey key)) := by
  have hInside : ComesTo (entries ∅) (nestingIn written) (tokens ++ Token.closeBrace :: later)
      written later :=
    comesTo_of_written hWritten [] not_clashes_nil (Nat.le_refl _) later
  rcases hInside.optionMap with ⟨key, hClash, hFails⟩ | ⟨hClean, hReads⟩
  · refine ⟨fun hNone => absurd hClash (hNone key), fun _ => ⟨key, hClash, ?_⟩⟩
    exact hFails cursor hRest hLevels
  · refine ⟨fun _ => ?_, fun ⟨key, hClash⟩ => absurd hClash (hClean key)⟩
    obtain ⟨after, hRun, hLater, hDepth⟩ := hReads cursor hRest hLevels
    exact ⟨after, hRun, hLater, hDepth⟩

/-- A map with both kinds of keys and of nested maps, separators and comments is read, and a
block after a value of the same key is refused. -/
theorem run_optionMap_of_written_mixed :
    (∃ after, optionMap.run (.ofTokens ["// k", "(", "a", ")", "// c", ":", "// v", "1", ";", ",",
          "b", Token.openBrace, "x", ":", "true", ";", Token.closeBrace, "c", ":", Token.openBrace,
          Token.closeBrace, "b", Token.openBrace, Token.closeBrace, Token.closeBrace, "next"] 2) =
        .ok ⟨[("a", .text "1"), ("b", .list [⟨[("x", .bool true)]⟩, ⟨[]⟩]), ("c", .map ⟨[]⟩)]⟩ after ∧
      after.rest = ["next"] ∧ after.depth = 0) ∧
    (optionMap.run (.ofTokens ["a", ":", "1", "a", Token.openBrace, Token.closeBrace,
      Token.closeBrace] 2)).Fails (.duplicate .optionMapKey "a") := by
  have hGap : IsGap [] := nofun
  have hNoComments : AllComments [] := nofun
  have hNone : Written [] [] := .done hGap
  constructor
  · have hInner : Written [.literal "x" "true"]
        ([] ++ (["x"] ++ ([] ++ ":" :: ([] ++ "true" :: [";"])))) :=
      .literal hGap (by decide) .bare hNoComments hNoComments (by decide)
        (.done (by simp [IsGap]))
    have hLast : Written [.nested .block "b" []]
        ([] ++ (["b"] ++ ([] ++ Token.openBrace :: ([] ++ Token.closeBrace :: [])))) :=
      .block hGap (by decide) .bare hNoComments hNone hNone
    have hThird : Written [.nested .value "c" [], .nested .block "b" []]
        ([] ++ (["c"] ++ ([] ++ ":" :: ([] ++ Token.openBrace :: ([] ++ Token.closeBrace ::
          ["b", Token.openBrace, Token.closeBrace]))))) :=
      .value hGap (by decide) .bare hNoComments hNoComments hNone hLast
    have hSecond : Written [.nested .block "b" [.literal "x" "true"], .nested .value "c" [],
          .nested .block "b" []]
        ([";", ","] ++ (["b"] ++ ([] ++ Token.openBrace :: (["x", ":", "true", ";"] ++
          Token.closeBrace :: ["c", ":", Token.openBrace, Token.closeBrace, "b", Token.openBrace,
            Token.closeBrace])))) :=
      .block (by simp [IsGap]) (by decide) .bare hNoComments hInner hThird
    have hFirst : Written [.literal "a" "1", .nested .block "b" [.literal "x" "true"],
          .nested .value "c" [], .nested .block "b" []]
        (["// k"] ++ (["(", "a", ")"] ++ (["// c"] ++ ":" :: (["// v"] ++ "1" ::
          [";", ",", "b", Token.openBrace, "x", ":", "true", ";", Token.closeBrace, "c", ":",
            Token.openBrace, Token.closeBrace, "b", Token.openBrace, Token.closeBrace])))) :=
      .literal (by simp [IsGap]; decide) (by decide) .parenthesized (by simp [AllComments]; decide)
        (by simp [AllComments]; decide) (by decide) hSecond
    refine (run_optionMap_of_written hFirst rfl (by decide)).1 ?_
    -- no entry repeats the key of one before it, except the second block of its key
    have hOne : ∀ key, ¬Clashes key [.literal "a" "1"] :=
      not_clashes_concat not_clashes_nil (by simp [Repeats]) nofun
    have hTwo : ∀ key, ¬Clashes key ([.literal "a" "1"] ++
        [.nested .block "b" [.literal "x" "true"]]) := by
      refine not_clashes_concat hOne (by simp [Repeats, OptionEntry.key]) ?_
      rintro _ _ _ ⟨⟩
      exact not_clashes_concat not_clashes_nil (by simp [Repeats]) nofun
    have hThree : ∀ key, ¬Clashes key ([.literal "a" "1",
        .nested .block "b" [.literal "x" "true"]] ++ [.nested .value "c" []]) := by
      refine not_clashes_concat hTwo (by simp [Repeats, OptionEntry.key]) ?_
      rintro _ _ _ ⟨⟩
      exact not_clashes_nil
    refine not_clashes_concat hThree (by simp [Repeats, OptionEntry.key, IsBlock]) ?_
    rintro _ _ _ ⟨⟩
    exact not_clashes_nil
  · have hLast : Written [.nested .block "a" []]
        ([] ++ (["a"] ++ ([] ++ Token.openBrace :: ([] ++ Token.closeBrace :: [])))) :=
      .block hGap (by decide) .bare hNoComments hNone hNone
    have hBoth : Written [.literal "a" "1", .nested .block "a" []]
        ([] ++ (["a"] ++ ([] ++ ":" :: ([] ++ "1" :: ["a", Token.openBrace,
          Token.closeBrace])))) :=
      .literal hGap (by decide) .bare hNoComments hNoComments (by decide) hLast
    have hLevels : (Cursor.ofTokens ["a", ":", "1", "a", Token.openBrace, Token.closeBrace,
        Token.closeBrace] 2).depth + (nestingIn [.literal "a" "1", .nested .block "a" []] + 1) ≤ 2 :=
      by decide
    obtain ⟨key, hClash, hFails⟩ := (run_optionMap_of_written hBoth rfl hLevels).2
      ⟨"a", .here (List.Sublist.refl _) rfl rfl fun hBlocks => hBlocks.1⟩
    obtain rfl : key = "a" := by
      cases hClash with
      | here hPair hFirst _ _ =>
          have hMem := hPair.subset List.mem_cons_self
          rcases List.mem_pair.mp hMem with rfl | rfl <;> exact hFirst.symm
      | inside hMem hInner =>
          rcases List.mem_pair.mp hMem with hNested | hNested <;> cases hNested
          exact absurd hInner (not_clashes_nil _)
    exact hFails

end Grammar
end ProtoIdl
