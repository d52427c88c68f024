import ProtoIdl.Schema.Option

/-!
# Looking up and adding bindings

What `OptionMap.bind` and `OptionMap.pushBlock` do, told by the keys that a map has.
-/

namespace ProtoIdl
namespace OptionMap

@[simp] theorem keys_empty : (∅ : OptionMap).keys = [] := rfl

@[simp] theorem entries_append (options : OptionMap) (key : String) (value : OptionValue) :
    (options.append key value).entries = options.entries ++ [(key, value)] := rfl

theorem get?_eq_none_iff (options : OptionMap) (key : String) :
    options.get? key = none ↔ key ∉ options.keys := by
  simp only [get?, List.lookup_eq_none_iff, keys, List.mem_map, bne_iff_ne]
  constructor
  · rintro hAll ⟨entry, hMem, rfl⟩
    exact hAll entry hMem rfl
  · intro hKey entry hMem hEq
    exact hKey ⟨entry, hMem, hEq.symm⟩

theorem contains_eq_false {options : OptionMap} {key : String} (hKey : key ∉ options.keys) :
    options.contains key = false := by
  rw [contains, (options.get?_eq_none_iff key).mpr hKey]
  rfl

theorem contains_eq_true {options : OptionMap} {key : String} (hKey : key ∈ options.keys) :
    options.contains key = true := by
  rw [contains, Option.isSome_iff_ne_none, ne_eq, get?_eq_none_iff, Classical.not_not]
  exact hKey

/-- A new key is bound at the end. -/
theorem bind_of_not_mem {options : OptionMap} {key : String} {value : OptionValue}
    (hKey : key ∉ options.keys) : options.bind key value = .ok (options.append key value) := by
  rw [bind, contains_eq_false hKey]
  rfl

/-- A binding that is added is new and comes last. -/
theorem eq_append_of_bind {options grown : OptionMap} {key : String} {value : OptionValue}
    (hBind : options.bind key value = .ok grown) : grown = options.append key value := by
  unfold bind at hBind
  split at hBind
  · cases hBind
  · cases hBind
    rfl

theorem not_mem_keys_of_bind {options grown : OptionMap} {key : String} {value : OptionValue}
    (hBind : options.bind key value = .ok grown) : key ∉ options.keys := by
  rw [← get?_eq_none_iff]
  unfold bind contains at hBind
  split at hBind
  · cases hBind
  · next hNone => simpa using hNone

/-- The first block of a new key makes a list of one. -/
theorem pushBlock_of_not_mem {options : OptionMap} {key : String} {block : OptionMap}
    (hKey : key ∉ options.keys) :
    options.pushBlock key block = .ok (options.append key (.list [block])) := by
  rw [pushBlock, (options.get?_eq_none_iff key).mpr hKey]

theorem get?_append_self {options : OptionMap} {key : String} {value : OptionValue}
    (hKey : key ∉ options.keys) : (options.append key value).get? key = some value := by
  have hNone := (options.get?_eq_none_iff key).mpr hKey
  rw [get?] at hNone
  simp [get?, List.lookup_append, hNone]

theorem replace_append_self {options : OptionMap} {key : String} {first second : OptionValue}
    (hKey : key ∉ options.keys) :
    (options.append key first).replace key second = options.append key second := by
  have hOthers : options.entries.map
      (fun entry => if entry.1 = key then (entry.1, second) else entry) = options.entries := by
    rw [List.map_congr_left (g := id), List.map_id]
    intro entry hMem
    have hNe : entry.1 ≠ key := by
      rintro rfl
      exact hKey (List.mem_map_of_mem hMem)
    simp [hNe]
  simp [replace, append, hOthers]

/-- A further block of the key bound last joins its list. -/
theorem pushBlock_append_self {options : OptionMap} {key : String} {blocks : List OptionMap}
    {block : OptionMap} (hKey : key ∉ options.keys) :
    (options.append key (.list blocks)).pushBlock key block =
      .ok (options.append key (.list (blocks ++ [block]))) := by
  rw [pushBlock, get?_append_self hKey]
  simp only [replace_append_self hKey]

/-- A block that is added is the first of a new key, or joins the blocks of its key. -/
theorem eq_of_pushBlock {options grown : OptionMap} {key : String} {block : OptionMap}
    (hPush : options.pushBlock key block = .ok grown) :
    (options.get? key = none ∧ grown = options.append key (.list [block])) ∨
      ∃ blocks, options.get? key = some (.list blocks) ∧
        grown = options.replace key (.list (blocks ++ [block])) := by
  unfold pushBlock at hPush
  split at hPush
  · next hNone =>
      cases hPush
      exact .inl ⟨hNone, rfl⟩
  · next blocks hBlocks =>
      cases hPush
      exact .inr ⟨blocks, hBlocks, rfl⟩
  · cases hPush

/-- Where no key is given twice, another value takes the place of the one value of its key. -/
theorem exists_entries_replace {options : OptionMap} {key : String} {first : OptionValue}
    (hKeys : options.keys.Nodup) (hFirst : options.get? key = some first)
    (second : OptionValue) :
    ∃ before after, options.entries = before ++ (key, first) :: after ∧
      (options.replace key second).entries = before ++ (key, second) :: after := by
  obtain ⟨before, after, hEntries, hBefore⟩ := List.lookup_eq_some_iff.mp hFirst
  have hOthers : ∀ entries : List (String × OptionValue), (∀ entry ∈ entries, entry.1 ≠ key) →
      entries.map (fun entry => if entry.1 = key then (entry.1, second) else entry) = entries := by
    intro entries hNe
    rw [List.map_congr_left (g := id), List.map_id]
    intro entry hMem
    simp [hNe entry hMem]
  have hAfter : ∀ entry ∈ after, entry.1 ≠ key := by
    rintro entry hMem rfl
    rw [keys, hEntries, List.map_append, List.map_cons] at hKeys
    exact (List.nodup_cons.mp (List.nodup_append.mp hKeys).2.1).1
      (List.mem_map.mpr ⟨entry, hMem, rfl⟩)
  refine ⟨before, after, hEntries, ?_⟩
  rw [replace, hEntries, List.map_append, List.map_cons, if_pos rfl, hOthers after hAfter,
    hOthers before]
  intro entry hMem hEq
  simpa [hEq] using hBefore entry hMem

theorem nodup_keys_empty : (∅ : OptionMap).keys.Nodup :=
  List.nodup_nil

theorem nodup_keys_append_iff {options : OptionMap} {key : String} {value : OptionValue} :
    (options.append key value).keys.Nodup ↔ options.keys.Nodup ∧ key ∉ options.keys := by
  rw [keys_append, List.nodup_append]
  constructor
  · rintro ⟨hKeys, -, hApart⟩
    exact ⟨hKeys, fun hMem => hApart key hMem key (by simp) rfl⟩
  · rintro ⟨hKeys, hNew⟩
    refine ⟨hKeys, by simp, ?_⟩
    rintro other hOther last hLast rfl
    rw [List.mem_singleton.mp hLast] at hOther
    exact hNew hOther

theorem nodup_keys_append {options : OptionMap} {key : String} (hKeys : options.keys.Nodup)
    (hNew : key ∉ options.keys) (value : OptionValue) : (options.append key value).keys.Nodup :=
  nodup_keys_append_iff.mpr ⟨hKeys, hNew⟩

/-- Adding a binding gives no key twice. -/
theorem nodup_keys_of_bind {options grown : OptionMap} {key : String} {value : OptionValue}
    (hKeys : options.keys.Nodup) (hBind : options.bind key value = .ok grown) :
    grown.keys.Nodup := by
  rw [eq_append_of_bind hBind]
  exact nodup_keys_append hKeys (not_mem_keys_of_bind hBind) value

/-- Adding a block gives no key twice. -/
theorem nodup_keys_of_pushBlock {options grown : OptionMap} {key : String} {block : OptionMap}
    (hKeys : options.keys.Nodup) (hPush : options.pushBlock key block = .ok grown) :
    grown.keys.Nodup := by
  rcases eq_of_pushBlock hPush with ⟨hNone, rfl⟩ | ⟨blocks, -, rfl⟩
  · exact nodup_keys_append hKeys ((get?_eq_none_iff options key).mp hNone) _
  · rwa [keys_replace]

end OptionMap
end ProtoIdl
