import ProtoIdl.Proofs.OptionMap.Calls

/-!
# Keys that are bound and keys that collect blocks

A run of calls keeps the keys apart that it has bound from those that collect blocks, with one
exception.  A key that is bound to a list of blocks cannot be told from a key that has
collected these blocks, and a block that is pushed on it joins the value that was bound.
-/

namespace ProtoIdl
namespace OptionMap

/-! ## What holds of a run -/

/-- The keys are in the order of the calls that have introduced them, without repetition, and a
call on a new key succeeds. -/
structure KeysInOrder (calls : List Call) : Prop where
  nodup : (afterCalls calls).keys.Nodup
  keys_eq : (afterCalls calls).keys = (calls.map Call.key).eraseDups
  introduced : ∀ before call after, calls = before ++ call :: after →
    call.key ∉ before.map Call.key → ∃ grown, call.apply (afterCalls before) = .ok grown

/-- A call that fails names its key as taken, and leaves the map as it was. -/
def FailuresKeep (calls : List Call) : Prop :=
  ∀ before call after, calls = before ++ call :: after →
    (∀ grown, call.apply (afterCalls before) ≠ .ok grown) →
      call.Refused (afterCalls before) ∧ afterCalls (before ++ [call]) = afterCalls before

/-- A key that is introduced by a block holds the blocks pushed on it, in order, and refuses to
be bound. -/
def BlocksKept (calls : List Call) : Prop :=
  ∀ before key block middle after,
    calls = before ++ .pushBlock key block :: (middle ++ after) →
      key ∉ (afterCalls before).keys →
        (afterCalls (before ++ .pushBlock key block :: middle)).get? key =
            some (.list (block :: blocksFor key middle)) ∧
          ∀ value later, after = .bind key value :: later →
            (Call.bind key value).Refused (afterCalls (before ++ .pushBlock key block :: middle))

/-- A key that is introduced by being bound keeps its value, and refuses every later call. -/
def BoundKept (calls : List Call) : Prop :=
  ∀ before key value middle after,
    calls = before ++ .bind key value :: (middle ++ after) → key ∉ (afterCalls before).keys →
      (afterCalls (before ++ .bind key value :: middle)).get? key = some value ∧
        ∀ call later, after = call :: later → call.key = key →
          call.Refused (afterCalls (before ++ .bind key value :: middle))

/-- A block is pushed on a key that was introduced by being bound to a list of blocks. -/
def PushesOnBound (calls : List Call) : Prop :=
  ∃ before key blocks middle block after,
    calls = before ++ .bind key (.list blocks) :: (middle ++ .pushBlock key block :: after) ∧
      key ∉ (afterCalls before).keys

/-! ## Proofs -/

theorem keysInOrder (calls : List Call) : KeysInOrder calls where
  nodup := nodup_keys_afterCalls calls
  keys_eq := keys_afterCalls calls
  introduced _ _ _ _ hNew := ⟨_, apply_of_not_mem (mem_keys_afterCalls.not.mpr hNew)⟩

theorem failuresKeep (calls : List Call) : FailuresKeep calls := by
  intro before call after _ hFails
  have hRefused : call.Refused (afterCalls before) :=
    (apply_cases (afterCalls before) call).resolve_left fun ⟨grown, hCall⟩ => hFails grown hCall
  exact ⟨hRefused, by rw [afterCalls_concat, afterCall_of_refused hRefused]⟩

theorem blocksKept (calls : List Call) : BlocksKept calls := by
  intro before key block middle after _ hNew
  have hHeld : (afterCalls (before ++ .pushBlock key block :: middle)).get? key =
      some (.list (block :: blocksFor key middle)) := by
    refine (get?_of_introduced (.pushBlock key block) hNew middle).trans ?_
    rw [Call.key_pushBlock, ← List.singleton_append, blocksFor_append, blocksFor_pushBlock]
    rfl
  exact ⟨hHeld, fun value later _ => refused_bind hHeld value⟩

/-- What a bound key holds: its value, which a list of blocks lets grow. -/
theorem get?_of_bound {before : List Call} {key : String} (hNew : key ∉ (afterCalls before).keys)
    (value : OptionValue) (middle : List Call) :
    (afterCalls (before ++ .bind key value :: middle)).get? key =
      some (value.joined (blocksFor key middle)) := by
  refine (get?_of_introduced (.bind key value) hNew middle).trans ?_
  rw [Call.key_bind, ← List.singleton_append, blocksFor_append, blocksFor_bind]
  rfl

/-- A block that calls give to a key is pushed by one of them. -/
theorem exists_pushBlock {key : String} {block : OptionMap} {calls : List Call}
    (hMem : block ∈ blocksFor key calls) :
    ∃ before after, calls = before ++ .pushBlock key block :: after := by
  obtain ⟨call, hCall, hBlock⟩ := List.mem_filterMap.mp hMem
  cases call with
  | bind other value => cases hBlock
  | pushBlock other pushed =>
      rw [Call.blockFor?] at hBlock
      split at hBlock
      · next hSame =>
          cases hBlock
          subst hSame
          exact List.append_of_mem hCall
      · cases hBlock

/-- Where no block is pushed on a bound list, what a bound key holds stays the value. -/
theorem boundKept_of_not_pushesOnBound {calls : List Call} (hApart : ¬PushesOnBound calls) :
    BoundKept calls := by
  intro before key value middle after hCalls hNew
  have hGet := get?_of_bound hNew value middle
  have hHeld : (afterCalls (before ++ .bind key value :: middle)).get? key = some value := by
    cases hList : value.asList? with
    | none => rw [hGet, OptionValue.joined_of_single hList]
    | some blocks =>
        -- a block in the middle would have been pushed on the list
        have hNone : blocksFor key middle = [] := by
          refine List.eq_nil_iff_forall_not_mem.mpr fun block hMem => hApart ?_
          obtain ⟨first, later, rfl⟩ := exists_pushBlock hMem
          rw [OptionValue.eq_list hList] at hCalls
          exact ⟨before, key, blocks, first, block, later ++ after, by simpa using hCalls, hNew⟩
        rw [hGet, hNone, OptionValue.joined_nil]
  refine ⟨hHeld, fun call later hAfter hKey => ?_⟩
  subst hAfter
  cases call with
  | bind other again =>
      obtain rfl : other = key := hKey
      exact refused_bind hHeld again
  | pushBlock other block =>
      obtain rfl : other = key := hKey
      cases hList : value.asList? with
      | none => exact refused_pushBlock hHeld hList block
      | some blocks =>
          rw [OptionValue.eq_list hList] at hCalls
          exact absurd ⟨before, other, blocks, middle, block, later, hCalls, hNew⟩ hApart

/-- A run that pushes a block on a bound list does not refuse it. -/
theorem not_pushesOnBound_of_boundKept {calls : List Call} (hKept : BoundKept calls) :
    ¬PushesOnBound calls := by
  rintro ⟨before, key, blocks, middle, block, after, hCalls, hNew⟩
  obtain ⟨hHeld, hRefuses⟩ := hKept before key (.list blocks) middle _ hCalls hNew
  have hRefused := hRefuses (.pushBlock key block) after rfl rfl
  rw [Call.Refused, apply_pushBlock hHeld] at hRefused
  cases hRefused

/-- Over every run of calls the keys are unique and in the order of the calls that introduce
them, a call that fails changes nothing, and a key that collects blocks holds just those and is
never bound.  A key that is bound keeps its value and refuses every later call exactly if the
run pushes no block on a key that it has bound to a list of blocks. -/
theorem keys_kept_apart (calls : List Call) :
    KeysInOrder calls ∧ FailuresKeep calls ∧ BlocksKept calls ∧
      (BoundKept calls ↔ ¬PushesOnBound calls) :=
  ⟨keysInOrder calls, failuresKeep calls, blocksKept calls, not_pushesOnBound_of_boundKept,
    boundKept_of_not_pushesOnBound⟩

/-- A key that is bound to a list takes a block, and no longer holds the value that was bound. -/
theorem bound_list_takes_block :
    let bound : List Call := [.bind "a" (.list [])]
    let push : Call := .pushBlock "a" ∅
    (afterCalls bound).get? "a" = some (.list []) ∧
      push.apply (afterCalls bound) = .ok (afterCalls (bound ++ [push])) ∧
        (afterCalls (bound ++ [push])).get? "a" = some (.list [∅]) ∧
          ¬BoundKept (bound ++ [push]) := by
  refine ⟨rfl, rfl, rfl, fun hKept => ?_⟩
  exact absurd ⟨[], "a", [], [], ∅, [], rfl, List.not_mem_nil⟩ (not_pushesOnBound_of_boundKept hKept)

end OptionMap
end ProtoIdl
