import ProtoIdl.Grammar.Option
import ProtoIdl.Proofs.Nesting
import ProtoIdl.Proofs.OptionMap
import ProtoIdl.Proofs.RoundTrip.Word

/-!
# Reading back options

Option maps are read back entry by entry: an entry with a colon adds a binding, and the
blocks of one key grow its list.  Option statements and field option lists then follow from
the reading of one binding.
-/

namespace ProtoIdl
namespace Grammar

open ProtoIdl.Parser

variable {levels : Nat} {rest later : List Token} {options final : OptionMap} {key : String}

/-! ## Entries of an option map -/

/-- The closing brace ends the entries. -/
theorem reads_entries_close (options : OptionMap) :
    (entries options).Reads levels (Token.closeBrace :: rest) options rest := by
  have hEntry : (mapEntry options).Reads levels (Token.closeBrace :: rest) .close rest := by
    refine .bind (reads_no_comments (by decide)) (.bind (reads_next _ _ _) ?_)
    rw [if_pos rfl]
    exact .pure _
  rw [entries_eq]
  exact .bind hEntry (.pure options)

/-- After a key of one word its value decides. -/
theorem mapEntry_goesOn_word {ahead : List Token} (hKey : IsWord key) (options : OptionMap) :
    (mapEntry options).GoesOn levels (key :: ahead) (entryValue options key) ahead := by
  have hSeparator : ¬(key = "," ∨ key = ";") := by
    rintro (hComma | hSemicolon)
    · exact hKey.ne (by decide) hComma
    · exact hKey.ne (by decide) hSemicolon
  have hEntryKey : (entryKey key).Reads levels ahead key ahead := by
    rw [entryKey, if_neg (hKey.ne (by decide)), if_neg (by simp [hKey.not_punctuation])]
    exact .pure key
  refine .trans (.bind (reads_no_comments hKey.not_comment)) (.trans (.bind (reads_next key _ _)) ?_)
  rw [if_neg (hKey.ne (by decide)), if_neg hSeparator]
  exact .bind hEntryKey

section Values

variable {before after : List Token} (hBefore : ∀ token ∈ before, token.isComment = true)
  (hAfter : ∀ token ∈ after, token.isComment = true) (hNew : key ∉ options.keys)

include hBefore

/-- After a key and an opening brace a block follows. -/
theorem reads_entryValue_block :
    (entryValue options key).Reads levels (before ++ Token.openBrace :: rest)
      (.nested .block key) rest := by
  refine .bind (reads_commentsBefore hBefore (by decide)) (.bind (reads_next _ _ _) ?_)
  rw [if_neg (by decide), if_pos rfl]
  exact .pure _

include hNew

/-- After the colon of a new key the value decides. -/
theorem entryValue_goesOn_colon :
    (entryValue options key).GoesOn levels (before ++ ":" :: rest)
      (takeComments >>= fun _ => next "option map value" "option map" >>= fun value =>
        if value = Token.openBrace then pure (.nested .value key)
        else if value.isPunctuation then rejectLast "option map"
        else pure (.literal key (.ofLiteral value))) rest := by
  refine .trans (.bind (reads_commentsBefore hBefore (by decide)))
    (.trans (.bind (reads_next ":" _ _)) ?_)
  rw [if_pos rfl, if_neg (by simp [OptionMap.contains_eq_false hNew])]
  exact .refl _

include hAfter

theorem reads_entryValue_literal {literal : Token} (hLiteral : IsWord literal) :
    (entryValue options key).Reads levels (before ++ ":" :: (after ++ literal :: rest))
      (.literal key (.ofLiteral literal)) rest := by
  refine (entryValue_goesOn_colon hBefore hNew).reads
    (.bind (reads_commentsBefore hAfter hLiteral.not_comment) (.bind (reads_next literal _ _) ?_))
  rw [if_neg (hLiteral.ne (by decide)), if_neg (by simp [hLiteral.not_punctuation])]
  exact .pure _

theorem reads_entryValue_map :
    (entryValue options key).Reads levels (before ++ ":" :: (after ++ Token.openBrace :: rest))
      (.nested .value key) rest := by
  refine (entryValue_goesOn_colon hBefore hNew).reads
    (.bind (reads_commentsBefore hAfter (by decide)) (.bind (reads_next _ _ _) ?_))
  rw [if_pos rfl]
  exact .pure _

end Values

/-- A colon and a literal add a binding. -/
theorem reads_entries_literal {literal : Token} (hKey : IsWord key)
    (hNew : key ∉ options.keys) (hLiteral : IsWord literal)
    (hRest : (entries (options.append key (.ofLiteral literal))).Reads levels rest final later) :
    (entries options).Reads levels (key :: ":" :: literal :: rest) final later := by
  have hValue : (entryValue options key).Reads levels (":" :: literal :: rest)
      (.literal key (.ofLiteral literal)) rest :=
    reads_entryValue_literal (List.forall_mem_nil _) (List.forall_mem_nil _) hNew hLiteral
  rw [entries_eq]
  exact .bind ((mapEntry_goesOn_word hKey options).reads hValue)
    (.bind (.ofExcept (OptionMap.bind_of_not_mem hNew)) hRest)

/-- A level is entered for the inside of an option map and left after it. -/
theorem reads_optionMap {inner : OptionMap} {ahead : List Token}
    (hInner : (entries ∅).Reads levels ahead inner rest) :
    optionMap.Reads (levels + 1) ahead inner rest := by
  intro cursor hAhead hLevels
  have hEnter : cursor.enter = .ok { cursor with depth := cursor.depth + 1 } := by
    rw [Cursor.enter, if_pos (by omega)]
  obtain ⟨after, hRun, hRest, hDepth⟩ :=
    hInner { cursor with depth := cursor.depth + 1 } hAhead (by simp only; omega)
  refine ⟨after.leave, ?_, hRest, ?_⟩
  · simp only [optionMap, run_bind, enter, hEnter, hRun, leave]
    rfl
  · show after.depth - 1 = cursor.depth
    rw [hDepth]
    rfl

/-- A nested map is stored under its key. -/
theorem reads_entries_nested {form : NestedForm} {inner grown : OptionMap}
    {ahead : List Token} (hEntry : (mapEntry options).Reads levels ahead (.nested form key) rest)
    {after : List Token} (hInner : optionMap.Reads levels rest inner after)
    (hStore : form.store options key inner = .ok grown)
    (hRest : (entries grown).Reads levels after final later) :
    (entries options).Reads levels ahead final later := by
  rw [entries_eq]
  refine .bind hEntry ?_
  refine .bind hInner ?_
  refine .bind (.ofExcept hStore) ?_
  exact hRest

/-- A key, a colon and an opening brace announce a map as a value. -/
theorem reads_mapEntry_value (hKey : IsWord key) (hNew : key ∉ options.keys) :
    (mapEntry options).Reads levels (key :: ":" :: Token.openBrace :: rest) (.nested .value key)
      rest :=
  (mapEntry_goesOn_word hKey options).reads
    (reads_entryValue_map (List.forall_mem_nil _) (List.forall_mem_nil _) hNew)

/-- A key and an opening brace announce a block. -/
theorem reads_mapEntry_block (hKey : IsWord key) :
    (mapEntry options).Reads levels (key :: Token.openBrace :: rest) (.nested .block key)
      rest :=
  (mapEntry_goesOn_word hKey options).reads (reads_entryValue_block (List.forall_mem_nil _))

/-! ## Option maps -/

theorem isWord_bool (value : Bool) : IsWord (if value then "true" else "false") := by
  cases value
  · exact (by decide : IsWord "false")
  · exact (by decide : IsWord "true")

theorem ofLiteral_bool (value : Bool) :
    OptionValue.ofLiteral (if value then "true" else "false") = .bool value := by
  cases value <;> rfl

theorem ofLiteral_quoted {text : String} (hText : Token.unquote text = text) :
    OptionValue.ofLiteral (Token.quoted text) = .text text := by
  rw [Token.ofLiteral_of_startsQuoted (startsQuoted_quoted text), unquote_quoted, hText]

/-- The state of a key while its blocks are read: absent before the first of them. -/
def OptionMap.withBlocks (options : OptionMap) (key : String) : List OptionMap → OptionMap
  | [] => options
  | blocks => options.append key (.list blocks)

theorem pushBlock_withBlocks (hNew : key ∉ options.keys) (done : List OptionMap)
    (block : OptionMap) :
    (OptionMap.withBlocks options key done).pushBlock key block =
      .ok (OptionMap.withBlocks options key (done ++ [block])) := by
  cases done with
  | nil => exact OptionMap.pushBlock_of_not_mem hNew
  | cons first done => exact OptionMap.pushBlock_append_self hNew

mutual

/-- The entries that give a value to a key bind the key to that value. -/
theorem reads_entryTokens {levels : Nat} {rest later : List Token} {options final : OptionMap}
    {key : String} (value : OptionValue) (hPrintable : value.Printable)
    (hNesting : value.nesting ≤ levels) (hKey : IsWord key) (hNew : key ∉ options.keys)
    (hRest : (entries (options.append key value)).Reads levels rest final later) :
    (entries options).Reads levels (value.entryTokens key ++ rest) final later :=
  match value with
  | .bool value => by
      apply reads_entries_literal hKey hNew (isWord_bool value)
      rwa [ofLiteral_bool]
  | .text text => by
      apply reads_entries_literal hKey hNew (isWord_quoted text)
      rwa [ofLiteral_quoted hPrintable]
  | .map inner => by
      -- a map takes a level of its own
      rw [OptionValue.nesting] at hNesting
      obtain ⟨levels, rfl⟩ : ∃ fewer, levels = fewer + 1 := ⟨levels - 1, by omega⟩
      have hInner : optionMap.Reads (levels + 1) (inner.tokens ++ Token.closeBrace :: rest) inner
          rest := reads_optionMap (reads_tokens inner hPrintable (by omega) rest)
      have hStore : NestedForm.store .value options key inner =
          .ok (options.append key (.map inner)) := OptionMap.bind_of_not_mem hNew
      refine reads_entries_nested (reads_mapEntry_value hKey hNew) ?_ hStore hRest
      simpa using hInner
  | .list blocks => by
      -- the first block makes the list, so an empty one could not be read back
      apply reads_blockTokens blocks [] hPrintable.2 hNesting hKey hNew
      cases blocks with
      | nil => exact absurd rfl hPrintable.1
      | cons block blocks => exact hRest
termination_by structural value

/-- The entries of a map and its closing brace are read to the map. -/
theorem reads_tokens {levels : Nat} (map : OptionMap) (hPrintable : map.Printable)
    (hNesting : map.nesting ≤ levels) (rest : List Token) :
    (entries ∅).Reads levels (map.tokens ++ Token.closeBrace :: rest) map rest :=
  match map with
  | ⟨todo⟩ => by
      have hNodup : ((∅ : OptionMap).keys ++ todo.map Prod.fst).Nodup := by
        simpa using hPrintable.1
      exact reads_entriesTokens todo hPrintable.2 hNodup hNesting rest
termination_by structural map

/-- Further entries are bound after those that are there. -/
theorem reads_entriesTokens {levels : Nat} {options : OptionMap} (todo : List (String × OptionValue))
    (hPrintable : OptionMap.EntriesPrintable todo)
    (hNodup : (options.keys ++ todo.map Prod.fst).Nodup)
    (hNesting : OptionMap.entriesNesting todo ≤ levels) (rest : List Token) :
    (entries options).Reads levels (OptionMap.entriesTokens todo ++ Token.closeBrace :: rest)
      ⟨options.entries ++ todo⟩ rest :=
  match todo with
  | [] => by
      cases options
      rw [OptionMap.entriesTokens, List.nil_append, List.append_nil]
      exact reads_entries_close _
  | (key, value) :: todo => by
      obtain ⟨hKey, hValue, hTodo⟩ := hPrintable
      rw [OptionMap.entriesNesting] at hNesting
      have hNew : key ∉ options.keys := by
        intro hMem
        exact (List.nodup_append.mp hNodup).2.2 key hMem key (by simp) rfl
      have hNodupTodo : ((options.append key value).keys ++ todo.map Prod.fst).Nodup := by
        simpa using hNodup
      have hLater := reads_entriesTokens todo hTodo hNodupTodo
        (le_trans (Nat.le_max_right _ _) hNesting) rest
      rw [OptionMap.entriesTokens, List.append_assoc]
      apply reads_entryTokens value hValue (le_trans (Nat.le_max_left _ _) hNesting) hKey hNew
      simpa using hLater
termination_by structural todo

/-- Further blocks of a key join those that have been read. -/
theorem reads_blockTokens {levels : Nat} {rest later : List Token} {options final : OptionMap}
    {key : String} (todo done : List OptionMap)
    (hPrintable : OptionMap.BlocksPrintable todo)
    (hNesting : OptionMap.blocksNesting todo ≤ levels) (hKey : IsWord key)
    (hNew : key ∉ options.keys)
    (hRest : (entries (OptionMap.withBlocks options key (done ++ todo))).Reads levels rest final
      later) :
    (entries (OptionMap.withBlocks options key done)).Reads levels
      (OptionMap.blockTokens key todo ++ rest) final later :=
  match todo with
  | [] => by simpa [OptionMap.blockTokens] using hRest
  | block :: todo => by
      rw [OptionMap.blocksNesting] at hNesting
      obtain ⟨levels, rfl⟩ : ∃ fewer, levels = fewer + 1 := ⟨levels - 1, by omega⟩
      have hInner : optionMap.Reads (levels + 1)
          (block.tokens ++ Token.closeBrace :: (OptionMap.blockTokens key todo ++ rest)) block
          (OptionMap.blockTokens key todo ++ rest) :=
        reads_optionMap (reads_tokens block hPrintable.1 (by omega) _)
      have hStore : NestedForm.store .block (OptionMap.withBlocks options key done) key block =
          .ok (OptionMap.withBlocks options key (done ++ [block])) :=
        pushBlock_withBlocks hNew done block
      refine reads_entries_nested ?_ hInner hStore
        (reads_blockTokens todo (done ++ [block]) hPrintable.2 (by omega) hKey hNew
          (by simpa using hRest))
      simpa [OptionMap.blockTokens, braced] using reads_mapEntry_block hKey
termination_by structural todo

end

/-! ## Declared options -/

/-- A declared binding can be read, whatever has been bound before it. -/
structure ReadableBinding (levels : Nat) (binding : String × OptionValue) : Prop where
  word : IsWord binding.1
  printable : binding.2.Printable
  single : binding.2.asList? = none
  admitted : admitsValue binding.1 binding.2 = true
  nesting : binding.2.nesting ≤ levels

theorem readableBinding_of_mem (hDeclared : options.Declared) (hNesting : options.nesting ≤ levels)
    {binding : String × OptionValue} (hMem : binding ∈ options.entries) :
    ReadableBinding levels binding where
  word := hDeclared.word binding hMem
  printable := hDeclared.printable binding hMem
  single := hDeclared.single binding hMem
  admitted := hDeclared.admitted binding hMem
  nesting := le_trans (OptionMap.nesting_le_of_mem hMem) hNesting

/-- The name of a declared binding is new after those before it. -/
theorem not_mem_keys_of_split (hDeclared : options.Declared)
    {done todo : List (String × OptionValue)} {binding : String × OptionValue}
    (hSplit : options.entries = done ++ binding :: todo) :
    binding.1 ∉ (OptionMap.mk done).keys := by
  have hNodup := hDeclared.nodup
  rw [OptionMap.keys, hSplit, List.map_append, List.map_cons] at hNodup
  intro hMem
  exact (List.nodup_append.mp hNodup).2.2 _ hMem _ (by simp) rfl

theorem reads_optionName {name : String} (hName : IsWord name) (context : String) :
    (optionName context).Reads levels (name :: rest) name rest := by
  have hParen : (name :: rest).head? ≠ some "(" := by
    simpa using hName.ne (by decide)
  exact .bind (reads_eat_other hParen) (reads_word hName _ _)

/-- A literal is the value that it stands for. -/
theorem reads_optionValue_literal {name : String} {literal : Token} {value : OptionValue}
    (hLiteral : IsWord literal) (hValue : OptionValue.ofLiteral literal = value)
    (hAdmitted : admitsValue name value = true) (context : String) :
    (optionValue name context).Reads levels (literal :: rest) value rest := by
  refine .bind (reads_next literal _ _) ?_
  rw [valueFrom, if_neg (hLiteral.ne (by decide)), if_neg (by simp [hLiteral.not_punctuation]), hValue]
  refine .bind (.pure value) ?_
  simp only [if_pos hAdmitted]
  exact .pure value

theorem reads_optionValue {binding : String × OptionValue}
    (hBinding : ReadableBinding levels binding) (context : String) :
    (optionValue binding.1 context).Reads levels (binding.2.tokens ++ rest) binding.2 rest := by
  obtain ⟨hWord, hPrintable, hSingle, hAdmitted, hNesting⟩ := hBinding
  rcases binding with ⟨name, value⟩
  cases value with
  | bool value =>
      exact reads_optionValue_literal (isWord_bool value) (ofLiteral_bool value) hAdmitted _
  | text text =>
      exact reads_optionValue_literal (isWord_quoted text) (ofLiteral_quoted hPrintable) hAdmitted _
  | map inner =>
      simp only [OptionValue.nesting] at hNesting
      obtain ⟨levels, rfl⟩ : ∃ fewer, levels = fewer + 1 := ⟨levels - 1, by omega⟩
      have hInner : optionMap.Reads (levels + 1) (inner.tokens ++ Token.closeBrace :: rest) inner
          rest := reads_optionMap (reads_tokens inner hPrintable (by omega) rest)
      have hTokens : (OptionValue.map inner).tokens ++ rest =
          Token.openBrace :: (inner.tokens ++ Token.closeBrace :: rest) := by
        simp [OptionValue.tokens, braced]
      rw [hTokens]
      refine .bind (reads_next _ _ _) ?_
      rw [valueFrom, if_pos rfl]
      refine .bind (hInner.map OptionValue.map) ?_
      simp only [if_pos hAdmitted]
      exact .pure _
  | list blocks => cases hSingle

theorem reads_optionBinding {binding : String × OptionValue}
    (hBinding : ReadableBinding levels binding) (context : String) :
    (optionBinding context).Reads levels (bindingTokens binding ++ rest) binding rest := by
  refine .bind (reads_optionName hBinding.word context) ?_
  refine .bind (reads_expect "=" context) ?_
  refine .bind (reads_optionValue hBinding context) ?_
  exact .pure binding

/-- After its keyword an option statement binds a new name. -/
theorem reads_bindOptionRest {binding : String × OptionValue}
    (hBinding : ReadableBinding levels binding) (hNew : binding.1 ∉ options.keys) :
    (bindOptionRest options).Reads levels (bindingTokens binding ++ ";" :: rest)
      (options.append binding.1 binding.2) rest :=
  .bind (.bind (reads_optionBinding hBinding _) (.bind (reads_expect ";" _) (.pure binding)))
    (.ofExcept (OptionMap.bind_of_not_mem hNew))

/-! ## Field option lists -/

theorem reads_fieldOption {binding : String × OptionValue}
    (hBinding : ReadableBinding levels binding) (hNew : binding.1 ∉ options.keys)
    (hRest : ∀ token, rest.head? = some token → token.isComment = false) :
    (fieldOption options).Reads levels (bindingTokens binding ++ rest)
      (options.append binding.1 binding.2) rest := by
  refine .bind (reads_no_comments hBinding.word.not_comment) ?_
  refine .bind (reads_optionBinding hBinding _) ?_
  refine .bind (.ofExcept (OptionMap.bind_of_not_mem hNew)) ?_
  refine .bind (reads_takeComments [] (by simp) hRest) ?_
  exact .pure _

/-- The options of a field are read back, also when their list is left out. -/
theorem reads_fieldList (hDeclared : options.Declared) (hNesting : options.nesting ≤ levels)
    (hRest : rest.head? ≠ some "[") :
    optionalFieldOptions.Reads levels (options.fieldList ++ rest) options rest := by
  rcases options with ⟨_ | ⟨first, others⟩⟩
  · refine .bind reads_peek ?_
    rw [if_neg (by simpa [OptionMap.fieldList] using hRest)]
    exact .pure _
  · have hList : (commaList "]" "field options" fieldOption ∅).Reads levels
        (commaSeparated ((first :: others).map bindingTokens) ++ "]" :: rest)
        ⟨first :: others⟩ rest := by
      apply reads_commaList OptionMap.mk (by decide) (by simp)
      intro done binding todo hSplit rest hStop
      refine reads_fieldOption (readableBinding_of_mem hDeclared hNesting
        (List.mem_iff_append.mpr ⟨done, todo, hSplit⟩))
        (not_mem_keys_of_split hDeclared hSplit) ?_
      obtain ⟨token, tail, rfl, hToken⟩ := hStop
      rintro other ⟨⟩
      rcases hToken with rfl | rfl <;> decide
    have hTokens : (OptionMap.mk (first :: others)).fieldList ++ rest =
        "[" :: (commaSeparated ((first :: others).map bindingTokens) ++ "]" :: rest) := by
      simp [OptionMap.fieldList]
    rw [hTokens]
    refine .bind reads_peek ?_
    rw [List.head?_cons, if_pos rfl]
    exact .bind (reads_expect "[" _) hList

/-- A number and its options are read back, up to the semicolon after them. -/
theorem reads_numbered {interval : Numeral.Interval} {number : Int}
    (hNumber : Numeral.within? interval number.repr = some number) (hDeclared : options.Declared)
    (hNesting : options.nesting ≤ levels) (expected context what : String)
    (build : Int → OptionMap → α) :
    Parser.Reads
      (do
        expect "=" context
        let literal ← next expected context
        let number ← numeral interval literal what
        let options ← optionalFieldOptions
        expect ";" context
        return build number options)
      levels ("=" :: number.repr :: (options.fieldList ++ ";" :: rest)) (build number options)
      rest := by
  refine .bind (reads_expect "=" _) ?_
  refine .bind (reads_next _ _ _) ?_
  refine .bind (reads_numeral hNumber _) ?_
  refine .bind (reads_fieldList hDeclared hNesting (by simp)) ?_
  refine .bind (reads_expect ";" _) ?_
  exact .pure _

/-! ## Option tokens in blocks -/

mutual

theorem whole_entryTokens {key : String} (value : OptionValue) (hPrintable : value.Printable)
    (hKey : IsWord key) : Cursor.Whole (value.entryTokens key) :=
  match value with
  | .bool value => whole_word hKey (whole_mark (whole_word (isWord_bool value) .nil))
  | .text text => whole_word hKey (whole_mark (whole_word (isWord_quoted text) .nil))
  | .map inner => whole_word hKey (whole_mark (whole_braced (whole_tokens inner hPrintable)))
  | .list blocks => whole_blockTokens blocks hPrintable.2 hKey
termination_by structural value

theorem whole_tokens (map : OptionMap) (hPrintable : map.Printable) : Cursor.Whole map.tokens :=
  match map with
  | ⟨entries⟩ => whole_entriesTokens entries hPrintable.2
termination_by structural map

theorem whole_entriesTokens (entries : List (String × OptionValue))
    (hPrintable : OptionMap.EntriesPrintable entries) :
    Cursor.Whole (OptionMap.entriesTokens entries) :=
  match entries with
  | [] => .nil
  | (_, value) :: rest =>
      (whole_entryTokens value hPrintable.2.1 hPrintable.1).append
        (whole_entriesTokens rest hPrintable.2.2)
termination_by structural entries

theorem whole_blockTokens {key : String} (blocks : List OptionMap)
    (hPrintable : OptionMap.BlocksPrintable blocks) (hKey : IsWord key) :
    Cursor.Whole (OptionMap.blockTokens key blocks) :=
  match blocks with
  | [] => .nil
  | block :: rest =>
      (whole_word hKey (whole_braced (whole_tokens block hPrintable.1))).append
        (whole_blockTokens rest hPrintable.2 hKey)
termination_by structural blocks

end

theorem whole_bindingTokens {binding : String × OptionValue} (hWord : IsWord binding.1)
    (hPrintable : binding.2.Printable) : Cursor.Whole (bindingTokens binding) := by
  refine whole_word hWord (whole_mark ?_)
  rcases binding with ⟨name, value⟩
  cases value with
  | bool value => exact whole_word (isWord_bool value) .nil
  | text text => exact whole_word (isWord_quoted text) .nil
  | map inner => exact whole_braced (whole_tokens inner hPrintable)
  | list blocks => exact .nil

theorem whole_statements (hDeclared : options.Declared) : Cursor.Whole options.statements := by
  refine .flatMap fun binding hMem => ?_
  exact whole_mark ((whole_bindingTokens (hDeclared.word binding hMem)
    (hDeclared.printable binding hMem)).append (whole_mark .nil))

theorem whole_fieldList (hDeclared : options.Declared) : Cursor.Whole options.fieldList := by
  unfold OptionMap.fieldList
  split
  · exact .nil
  · refine whole_mark (.append (whole_commaSeparated ?_) (whole_mark .nil))
    intro part hPart
    obtain ⟨binding, hMem, rfl⟩ := List.mem_map.mp hPart
    exact whole_bindingTokens (hDeclared.word binding hMem) (hDeclared.printable binding hMem)

end Grammar
end ProtoIdl
