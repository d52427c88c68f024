import Mathlib.Data.List.Basic
import Mathlib.Data.List.Induction
import ProtoIdl.Proofs.OptionMap

/-!
# Runs of calls on an option map

An option map is built by calls of `bind` and of `pushBlock`, and a call that fails leaves the
map as it is.  `collected` tells the map that a run of calls comes to by the calls alone: which
keys it has, in which order, and what each of them holds.

The kind of a key is not stored, it shows in the value that the key holds.  So a key that is
bound to a list of blocks looks like one that collects blocks, and takes more of them.  This is
the one way in which the two kinds of keys can be mixed.
-/

namespace ProtoIdl

namespace OptionValue

/-- The value with more blocks.  Only a list takes blocks. -/
def joined (value : OptionValue) (blocks : List OptionMap) : OptionValue :=
  match value with
  | list before => list (before ++ blocks)
  | other => other

@[simp] theorem joined_nil (value : OptionValue) : value.joined [] = value := by
  cases value <;> simp [joined]

@[simp] theorem joined_joined (value : OptionValue) (first second : List OptionMap) :
    (value.joined first).joined second = value.joined (first ++ second) := by
  cases value <;> simp [joined]

theorem joined_of_single {value : OptionValue} (hSingle : value.asList? = none)
    (blocks : List OptionMap) : value.joined blocks = value := by
  cases value with
  | list before => cases hSingle
  | bool value => rfl
  | text value => rfl
  | map inner => rfl

theorem eq_list {value : OptionValue} {blocks : List OptionMap}
    (hList : value.asList? = some blocks) : value = list blocks := by
  cases value <;> cases hList
  rfl

end OptionValue

namespace OptionMap

/-! ## Calls -/

/-- A call that adds to a map. -/
inductive Call where
  | bind (key : String) (value : OptionValue)
  | pushBlock (key : String) (block : OptionMap)

namespace Call

/-- The key that the call is about. -/
def key : Call → String
  | bind key _ => key
  | pushBlock key _ => key

@[simp] theorem key_bind (key : String) (value : OptionValue) : (bind key value).key = key := rfl

@[simp] theorem key_pushBlock (key : String) (block : OptionMap) :
    (pushBlock key block).key = key := rfl

/-- What the call makes of a map. -/
def apply (options : OptionMap) : Call → Except ParseError OptionMap
  | bind key value => options.bind key value
  | pushBlock key block => options.pushBlock key block

/-- The kind of the name that a call finds taken. -/
def kind : Call → Binding
  | bind _ _ => .option
  | pushBlock _ _ => .optionMapKey

/-- The call fails, because its key is taken. -/
def Refused (call : Call) (options : OptionMap) : Prop :=
  call.apply options = .error (.duplicate call.kind call.key)

/-- What a new key holds, apart from the block that the call may give it. -/
def start : Call → OptionValue
  | bind _ value => value
  | pushBlock _ _ => .list []

/-- The block that the call gives to a key. -/
def blockFor? (key : String) : Call → Option OptionMap
  | bind _ _ => none
  | pushBlock other block => if other = key then some block else none

theorem blockFor?_of_ne {call : Call} {key : String} (hKey : call.key ≠ key) :
    call.blockFor? key = none := by
  cases call with
  | bind other value => rfl
  | pushBlock other block => exact if_neg hKey

end Call

/-- The map after a call.  A call that fails leaves the map as it is. -/
def afterCall (options : OptionMap) (call : Call) : OptionMap :=
  match call.apply options with
  | .ok grown => grown
  | .error _ => options

/-- The map after calls on the empty map. -/
def afterCalls (calls : List Call) : OptionMap :=
  calls.foldl afterCall ∅

theorem afterCalls_concat (calls : List Call) (call : Call) :
    afterCalls (calls ++ [call]) = (afterCalls calls).afterCall call := by
  simp [afterCalls]

/-! ## What calls come to -/

/-- The blocks that calls give to a key, in order. -/
def blocksFor (key : String) (calls : List Call) : List OptionMap :=
  calls.filterMap (Call.blockFor? key)

/-- What a key holds after calls: what the first call on it has put there, and all blocks. -/
def valueFor? (key : String) (calls : List Call) : Option OptionValue :=
  (calls.find? fun call => call.key == key).map fun first =>
    first.start.joined (blocksFor key calls)

/-- The map that calls come to: each key that a call is about, in the order of the first calls,
with what it holds. -/
def collected (calls : List Call) : OptionMap :=
  ⟨(calls.map Call.key).eraseDups.filterMap fun key =>
    (valueFor? key calls).map fun value => (key, value)⟩

@[simp] theorem blocksFor_bind (key other : String) (value : OptionValue) :
    blocksFor key [.bind other value] = [] := rfl

@[simp] theorem blocksFor_pushBlock (key : String) (block : OptionMap) :
    blocksFor key [.pushBlock key block] = [block] := by
  simp [blocksFor, Call.blockFor?]

theorem blocksFor_append (key : String) (first second : List Call) :
    blocksFor key (first ++ second) = blocksFor key first ++ blocksFor key second :=
  List.filterMap_append

theorem blocksFor_eq_nil {key : String} {calls : List Call} (hNew : key ∉ calls.map Call.key) :
    blocksFor key calls = [] := by
  refine List.filterMap_eq_nil_iff.mpr fun call hMem => Call.blockFor?_of_ne ?_
  rintro rfl
  exact hNew (List.mem_map_of_mem hMem)

/-- What a key holds is told by its first call and by all calls after that. -/
theorem valueFor?_of_first {before : List Call} {first : Call}
    (hNew : first.key ∉ before.map Call.key) (later : List Call) :
    valueFor? first.key (before ++ first :: later) =
      some (first.start.joined (blocksFor first.key (first :: later))) := by
  have hBefore : before.find? (fun call => call.key == first.key) = none := by
    refine List.find?_eq_none.mpr fun call hMem hSame => hNew ?_
    rw [← eq_of_beq hSame]
    exact List.mem_map_of_mem hMem
  rw [valueFor?, List.find?_append, hBefore, Option.none_or, List.find?_cons_of_pos (by simp),
    blocksFor_append, blocksFor_eq_nil hNew]
  rfl

/-! ## One call -/

theorem get?_replace (options : OptionMap) (key other : String) (value : OptionValue) :
    (options.replace key value).get? other =
      if key = other then (options.get? other).map fun _ => value else options.get? other := by
  obtain ⟨entries⟩ := options
  simp only [get?, replace]
  induction entries with
  | nil => simp
  | cons entry rest ih =>
      rw [List.map_cons, List.lookup_cons, List.lookup_cons, ih]
      by_cases hOther : other = entry.1
      · subst hOther
        by_cases hEntry : key = entry.1
        · simp [hEntry]
        · simp [hEntry, Ne.symm hEntry]
      · have hNext : (other == entry.1) = false := by simpa using hOther
        by_cases hEntry : entry.1 = key
        · simp only [hEntry, if_true]
          rw [hEntry] at hNext
          simp [hNext]
        · simp [hEntry, hNext]

theorem get?_append (options : OptionMap) (key other : String) (value : OptionValue) :
    (options.append key value).get? other =
      (options.get? other).or (if key = other then some value else none) := by
  have hLast : List.lookup other [(key, value)] = if key = other then some value else none := by
    by_cases hSame : key = other
    · simp [hSame]
    · have hNext : (other == key) = false := by simpa using Ne.symm hSame
      simp [List.lookup_cons, hNext, hSame]
  rw [get?, entries_append, List.lookup_append, hLast]
  rfl

/-- A call on a new key succeeds, and the key comes last. -/
theorem apply_of_not_mem {options : OptionMap} {call : Call} (hNew : call.key ∉ options.keys) :
    call.apply options =
      .ok (options.append call.key (call.start.joined (blocksFor call.key [call]))) := by
  cases call with
  | bind key value =>
      rw [Call.key_bind] at hNew ⊢
      rw [Call.apply, bind_of_not_mem hNew]
      simp [Call.start]
  | pushBlock key block =>
      rw [Call.key_pushBlock] at hNew ⊢
      rw [Call.apply, pushBlock_of_not_mem hNew]
      simp [Call.start, OptionValue.joined]

/-- A taken key is not bound again. -/
theorem refused_bind {options : OptionMap} {key : String} {held : OptionValue}
    (hHeld : options.get? key = some held) (value : OptionValue) :
    (Call.bind key value).Refused options := by
  rw [Call.Refused, Call.apply, bind, contains, hHeld]
  rfl

/-- A key that holds a single value takes no block. -/
theorem refused_pushBlock {options : OptionMap} {key : String} {held : OptionValue}
    (hHeld : options.get? key = some held) (hSingle : held.asList? = none) (block : OptionMap) :
    (Call.pushBlock key block).Refused options := by
  rw [Call.Refused, Call.apply, pushBlock, hHeld]
  cases held with
  | list blocks => cases hSingle
  | bool value => rfl
  | text value => rfl
  | map inner => rfl

/-- A key that holds a list takes a block. -/
theorem apply_pushBlock {options : OptionMap} {key : String} {blocks : List OptionMap}
    (hHeld : options.get? key = some (.list blocks)) (block : OptionMap) :
    (Call.pushBlock key block).apply options =
      .ok (options.replace key (.list (blocks ++ [block]))) := by
  rw [Call.apply, pushBlock, hHeld]

/-- A call that fails is refused, because its key is taken. -/
theorem apply_cases (options : OptionMap) (call : Call) :
    (∃ grown, call.apply options = .ok grown) ∨ call.Refused options := by
  by_cases hNew : call.key ∈ options.keys
  · obtain ⟨held, hHeld⟩ : ∃ held, options.get? call.key = some held := by
      refine Option.ne_none_iff_exists'.mp fun hNone => ?_
      exact (get?_eq_none_iff options call.key).mp hNone hNew
    cases call with
    | bind key value => exact .inr (refused_bind hHeld value)
    | pushBlock key block =>
        cases hList : held.asList? with
        | none => exact .inr (refused_pushBlock hHeld hList block)
        | some blocks =>
            rw [OptionValue.eq_list hList] at hHeld
            exact .inl ⟨_, apply_pushBlock hHeld block⟩
  · exact .inl ⟨_, apply_of_not_mem hNew⟩

theorem afterCall_of_ok {options grown : OptionMap} {call : Call}
    (hCall : call.apply options = .ok grown) : options.afterCall call = grown := by
  rw [afterCall, hCall]

theorem afterCall_of_refused {options : OptionMap} {call : Call} (hCall : call.Refused options) :
    options.afterCall call = options := by
  rw [afterCall, hCall]

/-- A call adds its key, if that is new, and no other. -/
theorem keys_afterCall (options : OptionMap) (call : Call) :
    (options.afterCall call).keys =
      if call.key ∈ options.keys then options.keys else options.keys ++ [call.key] := by
  by_cases hKey : call.key ∈ options.keys
  · rw [if_pos hKey]
    rcases apply_cases options call with ⟨grown, hCall⟩ | hRefused
    · rw [afterCall_of_ok hCall]
      cases call with
      | bind key value => exact absurd hKey (not_mem_keys_of_bind hCall)
      | pushBlock key block =>
          rcases eq_of_pushBlock hCall with ⟨hNone, -⟩ | ⟨blocks, -, rfl⟩
          · exact absurd hKey ((get?_eq_none_iff options key).mp hNone)
          · exact keys_replace options key _
    · rw [afterCall_of_refused hRefused]
  · rw [if_neg hKey, afterCall_of_ok (apply_of_not_mem hKey), keys_append]

/-- A call changes what its key holds, and what no other key holds. -/
theorem get?_afterCall_of_ne (options : OptionMap) {call : Call} {key : String}
    (hOther : call.key ≠ key) : (options.afterCall call).get? key = options.get? key := by
  rcases apply_cases options call with ⟨grown, hCall⟩ | hRefused
  · rw [afterCall_of_ok hCall]
    cases call with
    | bind other value =>
        rw [Call.key_bind] at hOther
        rw [eq_append_of_bind hCall, get?_append, if_neg hOther, Option.or_none]
    | pushBlock other block =>
        rw [Call.key_pushBlock] at hOther
        rcases eq_of_pushBlock hCall with ⟨-, rfl⟩ | ⟨blocks, -, rfl⟩
        · rw [get?_append, if_neg hOther, Option.or_none]
        · rw [get?_replace, if_neg hOther]
  · rw [afterCall_of_refused hRefused]

/-- What a key holds is joined by the block of a call, and nothing else can change it. -/
theorem get?_afterCall {options : OptionMap} {key : String} {held : OptionValue}
    (hHeld : options.get? key = some held) (call : Call) :
    (options.afterCall call).get? key = some (held.joined (blocksFor key [call])) := by
  by_cases hKey : call.key = key
  · subst hKey
    cases call with
    | bind key value =>
        rw [Call.key_bind] at hHeld ⊢
        rw [afterCall_of_refused (refused_bind hHeld value), blocksFor_bind,
          OptionValue.joined_nil, hHeld]
    | pushBlock key block =>
        rw [Call.key_pushBlock] at hHeld ⊢
        cases hList : held.asList? with
        | none =>
            rw [afterCall_of_refused (refused_pushBlock hHeld hList block), hHeld,
              OptionValue.joined_of_single hList]
        | some blocks =>
            rw [OptionValue.eq_list hList] at hHeld ⊢
            rw [afterCall_of_ok (apply_pushBlock hHeld block), get?_replace, if_pos rfl, hHeld,
              blocksFor_pushBlock]
            rfl
  · rw [get?_afterCall_of_ne options hKey, hHeld,
      blocksFor_eq_nil (by simpa using Ne.symm hKey), OptionValue.joined_nil]

/-! ## Runs -/

/-- The keys after a run, in the order of the first calls on them. -/
theorem keys_afterCalls (calls : List Call) :
    (afterCalls calls).keys = (calls.map Call.key).eraseDups := by
  induction calls using List.reverseRecOn with
  | nil => rfl
  | append_singleton calls call ih =>
      rw [afterCalls_concat, keys_afterCall, ih, List.map_append, List.eraseDups_append]
      generalize calls.map Call.key = keys
      by_cases hKey : call.key ∈ keys
      · simp [hKey, List.removeAll]
      · simp [hKey, List.removeAll, List.eraseDups_cons]

theorem mem_keys_afterCalls {key : String} {calls : List Call} :
    key ∈ (afterCalls calls).keys ↔ key ∈ calls.map Call.key := by
  rw [keys_afterCalls, List.mem_eraseDups]

theorem nodup_keys_afterCalls (calls : List Call) : (afterCalls calls).keys.Nodup := by
  induction calls using List.reverseRecOn with
  | nil => exact nodup_keys_empty
  | append_singleton calls call ih =>
      rw [afterCalls_concat]
      rcases apply_cases (afterCalls calls) call with ⟨grown, hCall⟩ | hRefused
      · rw [afterCall_of_ok hCall]
        cases call with
        | bind key value => exact nodup_keys_of_bind ih hCall
        | pushBlock key block => exact nodup_keys_of_pushBlock ih hCall
      · rwa [afterCall_of_refused hRefused]

/-- What a key holds is joined by the blocks of all calls that follow. -/
theorem get?_foldl_afterCall {options : OptionMap} {key : String} {held : OptionValue}
    (hHeld : options.get? key = some held) (calls : List Call) :
    (calls.foldl afterCall options).get? key = some (held.joined (blocksFor key calls)) := by
  induction calls generalizing options held with
  | nil => simpa [blocksFor] using hHeld
  | cons call later ih =>
      rw [List.foldl_cons, ih (get?_afterCall hHeld call), OptionValue.joined_joined,
        ← blocksFor_append]
      rfl

/-- What a key holds is told by the call that has introduced it and by the calls after that. -/
theorem get?_of_introduced {before : List Call} (first : Call)
    (hNew : first.key ∉ (afterCalls before).keys) (later : List Call) :
    (afterCalls (before ++ first :: later)).get? first.key =
      some (first.start.joined (blocksFor first.key (first :: later))) := by
  have hFirst : ((afterCalls before).afterCall first).get? first.key =
      some (first.start.joined (blocksFor first.key [first])) := by
    rw [afterCall_of_ok (apply_of_not_mem hNew), get?_append_self hNew]
  rw [afterCalls, List.foldl_append, List.foldl_cons]
  refine (get?_foldl_afterCall hFirst later).trans ?_
  rw [OptionValue.joined_joined, ← blocksFor_append]
  rfl

/-- What a key holds after a run. -/
theorem get?_afterCalls (calls : List Call) (key : String) :
    (afterCalls calls).get? key = valueFor? key calls := by
  cases hFind : calls.find? fun call => call.key == key with
  | none =>
      rw [valueFor?, hFind, Option.map_none, get?_eq_none_iff, mem_keys_afterCalls]
      intro hMem
      obtain ⟨call, hCall, rfl⟩ := List.mem_map.mp hMem
      exact List.find?_eq_none.mp hFind call hCall (beq_self_eq_true _)
  | some first =>
      obtain ⟨hSame, before, later, rfl, hBefore⟩ := List.find?_eq_some_iff_append.mp hFind
      obtain rfl := eq_of_beq hSame
      have hNew : first.key ∉ before.map Call.key := by
        intro hMem
        obtain ⟨call, hCall, hKey⟩ := List.mem_map.mp hMem
        simpa [hKey] using hBefore call hCall
      rw [get?_of_introduced first (mem_keys_afterCalls.not.mpr hNew), valueFor?_of_first hNew]

/-- A key on which calls only push blocks holds the list of these. -/
theorem get?_of_pushes {key : String} {calls : List Call}
    (hPushes : ∀ call ∈ calls, call.key = key → ∃ block, call = .pushBlock key block)
    (hMem : key ∈ (afterCalls calls).keys) :
    (afterCalls calls).get? key = some (.list (blocksFor key calls)) := by
  cases hFind : calls.find? fun call => call.key == key with
  | none =>
      obtain ⟨call, hCall, rfl⟩ := List.mem_map.mp (mem_keys_afterCalls.mp hMem)
      exact absurd (beq_self_eq_true _) (List.find?_eq_none.mp hFind call hCall)
  | some first =>
      obtain ⟨hSame, -⟩ := List.find?_eq_some_iff_append.mp hFind
      obtain ⟨block, rfl⟩ := hPushes first (List.mem_of_find?_eq_some hFind) (eq_of_beq hSame)
      rw [get?_afterCalls, valueFor?, hFind]
      rfl

/-- A map without double keys is told by its keys, in order, and by what they hold. -/
theorem entries_eq_filterMap {options : OptionMap} (hKeys : options.keys.Nodup) :
    options.entries = options.keys.filterMap fun key =>
      (options.get? key).map fun value => (key, value) := by
  obtain ⟨entries⟩ := options
  simp only [keys, get?, List.filterMap_map] at hKeys ⊢
  induction entries with
  | nil => rfl
  | cons entry rest ih =>
      rw [List.map_cons, List.nodup_cons] at hKeys
      have hFirst : (entry :: rest).lookup entry.1 = some entry.2 := List.lookup_cons_self
      have hRest : ∀ other ∈ rest, (entry :: rest).lookup other.1 = rest.lookup other.1 := by
        intro other hOther
        have hNe : (other.1 == entry.1) = false := by
          refine beq_eq_false_iff_ne.mpr fun hSame => hKeys.1 ?_
          rw [← hSame]
          exact List.mem_map_of_mem hOther
        rw [List.lookup_cons, hNe]
      rw [List.filterMap_cons, Function.comp_apply, hFirst]
      refine congrArg (entry :: ·) ((ih hKeys.2).trans (List.filterMap_congr fun other hOther => ?_))
      rw [Function.comp_apply, Function.comp_apply, hRest other hOther]

/-- The map after a run is the one that the calls tell. -/
theorem afterCalls_eq_collected (calls : List Call) : afterCalls calls = collected calls := by
  have hEntries : (afterCalls calls).entries = (collected calls).entries := by
    rw [entries_eq_filterMap (nodup_keys_afterCalls calls), keys_afterCalls]
    simp only [get?_afterCalls]
    rfl
  generalize afterCalls calls = options at hEntries ⊢
  cases options
  exact congrArg mk hEntries

end OptionMap
end ProtoIdl
