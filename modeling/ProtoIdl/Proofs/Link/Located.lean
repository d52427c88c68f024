import ProtoIdl.Proofs.Resolve.Name

/-!
# Resolved names lead to messages

A path that resolution answers is the path of a message of the schema, and the message has the
last part of the name for its own name.
-/

namespace ProtoIdl

namespace Message

theorem getElem?_of_firstNamed? {name : String} {level : List Message} {place : Nat}
    {message : Message} (hFound : firstNamed? name level = some (place, message)) :
    level[place]? = some message ∧ message.name = name := by
  induction level generalizing place with
  | nil => cases hFound
  | cons first rest ih =>
      rw [firstNamed?] at hFound
      by_cases hName : first.name = name
      · rw [if_pos hName] at hFound
        cases hFound
        exact ⟨rfl, hName⟩
      · rw [if_neg hName] at hFound
        obtain ⟨⟨before, found⟩, hRest, hPair⟩ := Option.map_eq_some_iff.mp hFound
        cases hPair
        rw [List.getElem?_cons_succ]
        exact ih hRest

/-- Names that can be followed lead to a message below that has the last of the names. -/
theorem exists_at?_of_follow? {names : List String} {message : Message} {path : MessagePath}
    (hFollow : follow? names message.messages = some path) :
    ∃ target, message.at? path = some target ∧
      target.name = names.getLast?.getD message.name := by
  induction names generalizing message path with
  | nil =>
      cases hFollow
      exact ⟨message, rfl, rfl⟩
  | cons name names ih =>
      obtain ⟨⟨place, inner⟩, hFound, hRest⟩ := Option.bind_eq_some_iff.mp hFollow
      obtain ⟨below, hBelow, rfl⟩ := Option.map_eq_some_iff.mp hRest
      obtain ⟨hPlace, rfl⟩ := getElem?_of_firstNamed? hFound
      obtain ⟨target, hTarget, hName⟩ := ih hBelow
      refine ⟨target, ?_, ?_⟩
      · rw [at?, hPlace]
        exact hTarget
      · rw [hName, List.getLast?_cons, Option.getD_some]

mutual

theorem exists_at?_of_search? {name : String} (message : Message) {path : MessagePath}
    (hSearch : search? name message = some path) :
    ∃ target, message.at? path = some target ∧ target.name = name :=
  match message with
  | ⟨own, messages, enums, fields, blocks, extensions, reserved, options, comments⟩ => by
      rw [search?] at hSearch
      by_cases hName : own = name
      · rw [if_pos hName] at hSearch
        cases hSearch
        exact ⟨_, rfl, hName⟩
      · rw [if_neg hName] at hSearch
        obtain ⟨place, below, rfl, target, hTarget⟩ := exists_at?_of_searchLevel? messages hSearch
        exact ⟨target, hTarget⟩
termination_by structural message

/-- A name that is found by searching leads to a message below that has the name. -/
theorem exists_at?_of_searchLevel? {name : String} (level : List Message) {path : MessagePath}
    (hSearch : searchLevel? name level = some path) :
    ∃ place below, path = place :: below ∧
      ∃ target, level[place]?.bind (at? below) = some target ∧ target.name = name :=
  match level with
  | [] => by cases hSearch
  | message :: rest => by
      rw [searchLevel?] at hSearch
      split at hSearch
      · next below hBelow =>
          cases hSearch
          obtain ⟨target, hTarget⟩ := exists_at?_of_search? message hBelow
          exact ⟨0, below, rfl, target, hTarget⟩
      · split at hSearch
        · next place below hRest =>
            cases hSearch
            obtain ⟨place', below', hPath, target, hTarget⟩ :=
              exists_at?_of_searchLevel? rest hRest
            cases hPath
            exact ⟨place + 1, below, rfl, target, hTarget⟩
        · cases hSearch
termination_by structural level

end

end Message

namespace Schema

/-- One or more names that can be followed from the top level lead to a message that has the last
of the names. -/
theorem exists_at?_of_follow? {schema : Schema} {names : List String} {path : MessagePath}
    (hNames : names ≠ []) (hFollow : Message.follow? names schema.messages = some path) :
    ∃ target, schema.at? path = some target ∧ names.getLast? = some target.name := by
  cases names with
  | nil => exact absurd rfl hNames
  | cons name names =>
      obtain ⟨⟨place, inner⟩, hFound, hRest⟩ := Option.bind_eq_some_iff.mp hFollow
      obtain ⟨below, hBelow, rfl⟩ := Option.map_eq_some_iff.mp hRest
      obtain ⟨hPlace, rfl⟩ := Message.getElem?_of_firstNamed? hFound
      obtain ⟨target, hTarget, hName⟩ := Message.exists_at?_of_follow? hBelow
      refine ⟨target, ?_, ?_⟩
      · rw [at?, hPlace]
        exact hTarget
      · rw [List.getLast?_cons, hName]

theorem exists_at?_of_followFromTop? {schema : Schema} {name : List Char} {path : MessagePath}
    (hFollow : schema.followFromTop? name = some path) :
    ∃ target, schema.at? path = some target ∧ (splitName name).getLast? = some target.name :=
  exists_at?_of_follow? (splitName_ne_nil name) hFollow

/-- The package and a dot stand in front of what is left. -/
theorem eq_of_stripPackage? {schema : Schema} {name relative : List Char}
    (hStrip : schema.stripPackage? name = some relative) :
    ∃ package, schema.package = some package ∧ name = package.toList ++ '.' :: relative := by
  unfold stripPackage? at hStrip
  split at hStrip
  · cases hStrip
  · next package hPackage =>
      obtain ⟨hPrefix, hDrop⟩ := Option.ite_none_right_eq_some.mp hStrip
      obtain ⟨rest, rfl⟩ := List.isPrefixOf_iff_prefix.mp hPrefix
      refine ⟨package, hPackage, ?_⟩
      cases hDrop
      simp [List.drop_append]

theorem getLast?_splitName_of_stripPackage? {schema : Schema} {name relative : List Char}
    (hStrip : schema.stripPackage? name = some relative) :
    (splitName name).getLast? = (splitName relative).getLast? := by
  obtain ⟨package, -, rfl⟩ := eq_of_stripPackage? hStrip
  exact getLast?_splitName_append_dot package.toList relative

/-- A name that resolves stands for a message of the schema that has the last part of the name. -/
theorem exists_at?_of_locate? {schema : Schema} {scope : List String} {name : String}
    {path : MessagePath} (hLocate : schema.locate? scope name = some path) :
    ∃ target, schema.at? path = some target ∧
      (splitName name.toList).getLast? = some target.name := by
  unfold locate? at hLocate
  split at hLocate
  · next qualified hName =>
      obtain ⟨target, hTarget, hLast⟩ := exists_at?_of_followFromTop? hLocate
      refine ⟨target, hTarget, ?_⟩
      rw [hName, ← List.nil_append ('.' :: qualified), getLast?_splitName_append_dot]
      cases hStrip : schema.stripPackage? qualified with
      | none => rwa [hStrip, Option.getD_none] at hLast
      | some relative =>
          rw [hStrip, Option.getD_some] at hLast
          rw [getLast?_splitName_of_stripPackage? hStrip, hLast]
  · rcases Option.or_eq_some_iff.mp hLocate with hScope | ⟨-, hOther⟩
    · obtain ⟨depth, -, hFollow⟩ := List.exists_of_findSome?_eq_some hScope
      obtain ⟨target, hTarget, hLast⟩ := exists_at?_of_follow? (by simp [splitName_ne_nil]) hFollow
      rw [List.getLast?_append_of_ne_nil _ (splitName_ne_nil _)] at hLast
      exact ⟨target, hTarget, hLast⟩
    · rcases Option.or_eq_some_iff.mp hOther with hPackage | ⟨-, hSearch⟩
      · obtain ⟨relative, hStrip, hFollow⟩ := Option.bind_eq_some_iff.mp hPackage
        obtain ⟨target, hTarget, hLast⟩ := exists_at?_of_followFromTop? hFollow
        exact ⟨target, hTarget, (getLast?_splitName_of_stripPackage? hStrip).trans hLast⟩
      · split at hSearch
        · cases hSearch
        · next hPlain =>
            obtain ⟨place, below, rfl, target, hTarget, hName⟩ :=
              Message.exists_at?_of_searchLevel? schema.messages hSearch
            rw [List.contains_iff_mem] at hPlain
            refine ⟨target, hTarget, ?_⟩
            rw [splitName_of_not_mem hPlain, List.getLast?_singleton, hName]

end Schema
end ProtoIdl
