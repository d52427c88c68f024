import Mathlib.Data.List.Basic
import ProtoIdl.Schema.Resolve

/-!
# Dotted names and their parts

Names joined by dots are taken apart again by `splitName`.  The last part of a dotted name is
what stands after its last dot.
-/

namespace ProtoIdl

/-! ## Parts -/

theorem nameParts_ne_nil (name : List Char) : nameParts name ≠ [] := by
  cases name with
  | nil => simp [nameParts]
  | cons c rest =>
      rw [nameParts]
      split
      · simp
      · split <;> simp

theorem nameParts_cons_dot (rest : List Char) : nameParts ('.' :: rest) = [] :: nameParts rest := by
  rw [nameParts, if_pos rfl]

theorem nameParts_cons {c : Char} {rest part : List Char} {parts : List (List Char)}
    (hChar : c ≠ '.') (hRest : nameParts rest = part :: parts) :
    nameParts (c :: rest) = (c :: part) :: parts := by
  rw [nameParts, if_neg hChar, hRest]

/-- A dot separates the parts on its two sides. -/
theorem nameParts_append_dot (front rest : List Char) :
    nameParts (front ++ '.' :: rest) = nameParts front ++ nameParts rest := by
  induction front with
  | nil => exact nameParts_cons_dot rest
  | cons c front ih =>
      by_cases hDot : c = '.'
      · subst hDot
        rw [List.cons_append, nameParts_cons_dot, nameParts_cons_dot, ih, List.cons_append]
      · obtain ⟨part, parts, hParts⟩ := List.exists_cons_of_ne_nil (nameParts_ne_nil front)
        rw [hParts, List.cons_append] at ih
        rw [List.cons_append, nameParts_cons hDot ih, nameParts_cons hDot hParts, List.cons_append]

theorem nameParts_of_not_mem {name : List Char} (hPlain : '.' ∉ name) : nameParts name = [name] := by
  induction name with
  | nil => rfl
  | cons c rest ih =>
      rw [List.mem_cons, not_or] at hPlain
      exact nameParts_cons (Ne.symm hPlain.1) (ih hPlain.2)

theorem splitName_ne_nil (name : List Char) : splitName name ≠ [] := by
  simpa [splitName] using nameParts_ne_nil name

theorem splitName_append_dot (front rest : List Char) :
    splitName (front ++ '.' :: rest) = splitName front ++ splitName rest := by
  rw [splitName, nameParts_append_dot, List.map_append, splitName, splitName]

theorem splitName_of_not_mem {name : String} (hPlain : '.' ∉ name.toList) :
    splitName name.toList = [name] := by
  rw [splitName, nameParts_of_not_mem hPlain, List.map_singleton, String.ofList_toList]

/-- What stands in front of a dot does not matter for the last part. -/
theorem getLast?_splitName_append_dot (front rest : List Char) :
    (splitName (front ++ '.' :: rest)).getLast? = (splitName rest).getLast? := by
  rw [splitName_append_dot, List.getLast?_append_of_ne_nil _ (splitName_ne_nil rest)]

/-! ## Joined names -/

/-- Names joined by dots. -/
def dottedName (names : List String) : String :=
  ".".intercalate names

/-- A name that can stand between dots: it is not empty and has no dot. -/
def IsNamePart (name : String) : Prop :=
  name ≠ "" ∧ '.' ∉ name.toList

theorem toList_dottedName_cons (name next : String) (rest : List String) :
    (dottedName (name :: next :: rest)).toList =
      name.toList ++ '.' :: (dottedName (next :: rest)).toList := by
  simp [dottedName, String.toList_intercalate]

/-- Joined names are taken apart to the names that were joined. -/
theorem splitName_dottedName {names : List String} (hNames : names ≠ [])
    (hParts : ∀ name ∈ names, IsNamePart name) : splitName (dottedName names).toList = names := by
  induction names with
  | nil => exact absurd rfl hNames
  | cons name rest ih =>
      have hFirst := splitName_of_not_mem (hParts name List.mem_cons_self).2
      cases rest with
      | nil => simpa [dottedName] using hFirst
      | cons next rest =>
          rw [toList_dottedName_cons, splitName_append_dot, hFirst,
            ih (List.cons_ne_nil next rest) fun other hMem =>
              hParts other (List.mem_cons_of_mem name hMem)]
          rfl

/-- Joined names do not start with a dot. -/
theorem dottedName_ne_cons_dot {names : List String} (hNames : names ≠ [])
    (hParts : ∀ name ∈ names, IsNamePart name) (rest : List Char) :
    (dottedName names).toList ≠ '.' :: rest := by
  intro hDot
  have hSplit := splitName_dottedName hNames hParts
  rw [hDot, splitName, nameParts_cons_dot, List.map_cons] at hSplit
  exact (hParts "" (hSplit ▸ List.mem_cons_self)).1 rfl

/-! ## The last part -/

/-- The part is what stands after the last dot of the name, the whole name if there is no dot. -/
def IsLastPart (part name : String) : Prop :=
  '.' ∉ part.toList ∧ (name = part ∨ ∃ front, name = front ++ "." ++ part)

theorem isLastPart_of_getLast? {part name : String}
    (hLast : (splitName name.toList).getLast? = some part) : IsLastPart part name := by
  by_cases hDot : '.' ∈ name.toList
  · obtain ⟨after, before, hSplit, hPlain⟩ :=
      List.eq_append_cons_of_mem (List.mem_reverse.mpr hDot)
    have hName : name.toList = before.reverse ++ '.' :: (String.ofList after.reverse).toList := by
      rw [← List.reverse_reverse name.toList, hSplit]
      simp
    have hAfter : '.' ∉ (String.ofList after.reverse).toList := by simpa using hPlain
    rw [hName, getLast?_splitName_append_dot, splitName_of_not_mem hAfter, List.getLast?_singleton,
      Option.some_inj] at hLast
    subst hLast
    refine ⟨hAfter, .inr ⟨String.ofList before.reverse, String.toList_inj.mp ?_⟩⟩
    rw [hName]
    simp
  · rw [splitName_of_not_mem hDot, List.getLast?_singleton, Option.some_inj] at hLast
    subst hLast
    exact ⟨hDot, .inl rfl⟩

/-- A name without dots is its own last part. -/
theorem IsLastPart.eq_of_not_mem {part name : String} (hLast : IsLastPart part name)
    (hPlain : '.' ∉ name.toList) : part = name := by
  obtain ⟨-, rfl | ⟨front, rfl⟩⟩ := hLast
  · rfl
  · simp at hPlain

end ProtoIdl
