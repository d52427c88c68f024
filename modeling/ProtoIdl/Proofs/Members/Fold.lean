import Mathlib.Data.List.Induction
import ProtoIdl.Proofs.OptionMap

/-!
# Members that fit, and the first that does not

A state that depends only on the members added so far grows as long as they fit together, and
the first that does not fit decides the fault.  Members that give names fit if no name is given
twice.
-/

namespace ProtoIdl

section Fold

variable {add : σ → ξ → Except ε σ} {stateAt : List ξ → σ} (Fits : List ξ → Prop)

/-- Members that fit together make the state that they make in order. -/
theorem foldlM_of_fits
    (hStep : ∀ done part, Fits (done ++ [part]) →
      Fits done ∧ add (stateAt done) part = .ok (stateAt (done ++ [part])))
    {parts : List ξ} (hFits : Fits parts) :
    parts.foldlM add (stateAt []) = .ok (stateAt parts) := by
  induction parts using List.reverseRecOn with
  | nil => rfl
  | append_singleton done part ih =>
      obtain ⟨hDone, hAdd⟩ := hStep done part hFits
      rw [List.foldlM_append, ih hDone]
      show [part].foldlM add (stateAt done) = _
      rw [List.foldlM_cons, hAdd]
      rfl

/-- The fault of the first member that does not fit is the fault of all. -/
theorem foldlM_of_fault
    (hStep : ∀ done part, Fits (done ++ [part]) →
      Fits done ∧ add (stateAt done) part = .ok (stateAt (done ++ [part])))
    {done todo : List ξ} {part : ξ} {fault : ε} (hFits : Fits done)
    (hFault : add (stateAt done) part = .error fault) :
    (done ++ part :: todo).foldlM add (stateAt []) = .error fault := by
  rw [List.foldlM_append, foldlM_of_fits Fits hStep hFits]
  show (part :: todo).foldlM add (stateAt done) = _
  rw [List.foldlM_cons, hFault]
  rfl

/-- Among members that do not fit together there is a first one that does not fit. -/
theorem exists_first_misfit (hNil : Fits []) {parts : List ξ} (hParts : ¬Fits parts) :
    ∃ done part todo, parts = done ++ part :: todo ∧ Fits done ∧ ¬Fits (done ++ [part]) := by
  induction parts using List.reverseRecOn with
  | nil => exact absurd hNil hParts
  | append_singleton done part ih =>
      by_cases hDone : Fits done
      · exact ⟨done, part, [], rfl, hDone, hParts⟩
      · obtain ⟨first, misfit, todo, rfl, hFirst⟩ := ih hDone
        exact ⟨first, misfit, todo ++ [part], by simp, hFirst⟩

end Fold

/-! ## Names -/

section Names

variable {name? : ξ → Option κ} {done : List ξ} {part : ξ}

/-- One more member fits if it gives no name or a new one. -/
theorem nodup_filterMap_concat :
    ((done ++ [part]).filterMap name?).Nodup ↔
      (done.filterMap name?).Nodup ∧
        ∀ name, name? part = some name → name ∉ done.filterMap name? := by
  cases hName : name? part with
  | none => simp [hName]
  | some name =>
      have hLast : [part].filterMap name? = [name] := by simp [hName]
      rw [List.filterMap_append, hLast, List.nodup_append]
      constructor
      · rintro ⟨hDone, -, hApart⟩
        refine ⟨hDone, ?_⟩
        rintro other ⟨⟩ hMem
        exact hApart name hMem name (by simp) rfl
      · rintro ⟨hDone, hNew⟩
        refine ⟨hDone, by simp, ?_⟩
        rintro other hMem last hLast rfl
        rw [List.mem_singleton.mp hLast] at hMem
        exact hNew name rfl hMem

/-- Where a name is given twice, there is a first member that repeats one. -/
theorem exists_first_repeated {parts : List ξ} (hParts : ¬(parts.filterMap name?).Nodup) :
    ∃ done part todo name, parts = done ++ part :: todo ∧ (done.filterMap name?).Nodup ∧
      name? part = some name ∧ name ∈ done.filterMap name? := by
  obtain ⟨done, part, todo, hSplit, hDone, hPart⟩ :=
    exists_first_misfit (fun parts => (parts.filterMap name?).Nodup) List.nodup_nil hParts
  rw [nodup_filterMap_concat] at hPart
  push Not at hPart
  obtain ⟨name, hName, hMem⟩ := hPart hDone
  exact ⟨done, part, todo, name, hSplit, hDone, hName, hMem⟩

/-- The name is the first of the list that stands there for the second time. -/
def RepeatsFirst (name : κ) (names : List κ) : Prop :=
  ∃ before after, names = before ++ name :: after ∧ before.Nodup ∧ name ∈ before

theorem RepeatsFirst.mem {name : κ} {names : List κ} (hName : RepeatsFirst name names) :
    name ∈ names := by
  obtain ⟨before, after, rfl, -, hMem⟩ := hName
  exact List.mem_append_left _ hMem

theorem exists_repeatsFirst {names : List κ} (hNames : ¬names.Nodup) :
    ∃ name, RepeatsFirst name names := by
  rw [← List.filterMap_some (l := names)] at hNames
  obtain ⟨before, name, after, _, hSplit, hBefore, ⟨⟩, hMem⟩ := exists_first_repeated hNames
  rw [List.filterMap_some] at hBefore hMem
  exact ⟨name, before, after, hSplit, hBefore, hMem⟩

end Names

/-! ## Options -/

namespace OptionMap

/-- A key that is bound is not bound again. -/
theorem bind_of_mem {options : OptionMap} {key : String} {value : OptionValue}
    (hKey : key ∈ options.keys) : options.bind key value = .error (.duplicate .option key) := by
  rw [bind, contains_eq_true hKey]
  rfl

/-- Bind options one after the other. -/
def bindAll (bindings : List (String × OptionValue)) : Except ParseError OptionMap :=
  bindings.foldlM (fun options binding => options.bind binding.1 binding.2) ∅

theorem bindAll_step (done : List (String × OptionValue)) (binding : String × OptionValue)
    (hNodup : (keys ⟨done ++ [binding]⟩).Nodup) :
    (keys ⟨done⟩).Nodup ∧ bind ⟨done⟩ binding.1 binding.2 = .ok ⟨done ++ [binding]⟩ := by
  have hLast : (append ⟨done⟩ binding.1 binding.2).keys.Nodup := hNodup
  obtain ⟨hKeys, hNew⟩ := nodup_keys_append_iff.mp hLast
  exact ⟨hKeys, bind_of_not_mem hNew⟩

/-- Options of different names are all bound, in order. -/
theorem bindAll_of_nodup {options : OptionMap} (hKeys : options.keys.Nodup) :
    bindAll options.entries = .ok options := by
  cases options with
  | mk bindings =>
      exact foldlM_of_fits (fun bindings => (keys ⟨bindings⟩).Nodup) bindAll_step hKeys

/-- Where two options have one name, the first that repeats one is refused. -/
theorem bindAll_of_repeatsFirst {options : OptionMap} {key : String}
    (hKey : RepeatsFirst key options.keys) :
    bindAll options.entries = .error (.duplicate .option key) := by
  obtain ⟨before, after, hKeys, hBefore, hMem⟩ := hKey
  obtain ⟨done, rest, hSplit, rfl, hRest⟩ := List.map_eq_append_iff.mp hKeys
  obtain ⟨binding, todo, rfl, rfl, -⟩ := List.map_eq_cons_iff.mp hRest
  rw [hSplit]
  exact foldlM_of_fault (fun bindings => (keys ⟨bindings⟩).Nodup) bindAll_step hBefore
    (bind_of_mem hMem)

end OptionMap
end ProtoIdl
