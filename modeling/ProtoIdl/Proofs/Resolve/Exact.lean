import ProtoIdl.Proofs.Link.Located
import ProtoIdl.Proofs.Resolve.Place

/-!
# Names stand for the messages they tell

A message that is the first of its name among its siblings, and lies in messages that are too,
is found by its fully qualified name from everywhere, and by the rest of its path from each of
the messages around it.  A name without dots is found if any message has it.  What is found has
the last part of the name, and it can be changed in its place.
-/

namespace ProtoIdl
namespace Message

/-! ## First siblings -/

/-- The path leads from the messages of a level through messages of the given names, each of them
the first of its name among its siblings, to the target. -/
inductive LeadsFirst : List Message → MessagePath → List String → Message → Prop
  | last {level : List Message} {place : Nat} {message : Message}
      (hAt : level[place]? = some message)
      (hFirst : ∀ sibling ∈ level.take place, sibling.name ≠ message.name) :
      LeadsFirst level [place] [message.name] message
  | step {level : List Message} {place : Nat} {message target : Message} {path : MessagePath}
      {names : List String} (hAt : level[place]? = some message)
      (hFirst : ∀ sibling ∈ level.take place, sibling.name ≠ message.name)
      (hBelow : LeadsFirst message.messages path names target) :
      LeadsFirst level (place :: path) (message.name :: names) target

theorem firstNamed?_eq_some {level : List Message} {place : Nat} {message : Message}
    (hAt : level[place]? = some message)
    (hFirst : ∀ sibling ∈ level.take place, sibling.name ≠ message.name) :
    firstNamed? message.name level = some (place, message) := by
  induction place generalizing level with
  | zero =>
      obtain ⟨rest, rfl⟩ : ∃ rest, level = message :: rest := by
        cases level with
        | nil => cases hAt
        | cons first rest =>
            cases hAt
            exact ⟨rest, rfl⟩
      rw [firstNamed?, if_pos rfl]
  | succ place ih =>
      cases level with
      | nil => cases hAt
      | cons first rest =>
          rw [List.take_succ_cons] at hFirst
          rw [firstNamed?, if_neg (hFirst first List.mem_cons_self),
            ih hAt fun sibling hMem => hFirst sibling (List.mem_cons_of_mem first hMem)]
          rfl

namespace LeadsFirst

variable {level : List Message} {path : MessagePath} {names : List String} {target : Message}

theorem names_ne_nil (hLeads : LeadsFirst level path names target) : names ≠ [] := by
  cases hLeads <;> exact List.cons_ne_nil _ _

/-- The names lead down the path. -/
theorem follow?_eq (hLeads : LeadsFirst level path names target) :
    follow? names level = some path := by
  induction hLeads with
  | last hAt hFirst =>
      rw [follow?, firstNamed?_eq_some hAt hFirst]
      rfl
  | step hAt hFirst _ ih =>
      rw [follow?, firstNamed?_eq_some hAt hFirst, Option.bind_some, ih]
      rfl

theorem exists_eq_cons (hLeads : LeadsFirst level path names target) :
    ∃ place below, path = place :: below ∧ level[place]?.bind (at? below) = some target := by
  induction hLeads with
  | last hAt => exact ⟨_, _, rfl, by rw [hAt]; rfl⟩
  | step hAt _ _ ih =>
      obtain ⟨place, below, rfl, hTarget⟩ := ih
      exact ⟨_, _, rfl, by rw [hAt]; exact hTarget⟩

/-- The target stands at the path. -/
theorem at?_eq {schema : Schema} (hLeads : LeadsFirst schema.messages path names target) :
    schema.at? path = some target := by
  obtain ⟨place, below, rfl, hTarget⟩ := hLeads.exists_eq_cons
  exact hTarget

end LeadsFirst

/-! ## Searching -/

/-- A name that is not found has not been found in any message of the level. -/
theorem search?_eq_none_of_mem {name : String} {level : List Message} {message : Message}
    (hNone : searchLevel? name level = none) (hMem : message ∈ level) :
    search? name message = none := by
  induction level with
  | nil => exact absurd hMem List.not_mem_nil
  | cons first rest ih =>
      rw [searchLevel?] at hNone
      split at hNone
      · cases hNone
      · next hFirst =>
          rcases List.mem_cons.mp hMem with rfl | hRest
          · exact hFirst
          · refine ih ?_ hRest
            cases hSearch : searchLevel? name rest with
            | none => rfl
            | some path =>
                obtain ⟨place, below, rfl, -⟩ := exists_at?_of_searchLevel? rest hSearch
                rw [hSearch] at hNone
                cases hNone

/-- A name that is not found is not the name of the message or of one below it. -/
theorem name_ne_of_search?_eq_none {name : String} {message target : Message}
    {path : MessagePath} (hNone : search? name message = none)
    (hTarget : message.at? path = some target) : target.name ≠ name := by
  induction path generalizing message with
  | nil =>
      cases hTarget
      cases target
      rw [search?] at hNone
      exact fun hName => nomatch (if_pos hName).symm.trans hNone
  | cons place path ih =>
      obtain ⟨inner, hInner, hBelow⟩ := Option.bind_eq_some_iff.mp hTarget
      refine ih (search?_eq_none_of_mem ?_ (List.mem_of_getElem? hInner)) hBelow
      cases message
      rw [search?] at hNone
      split at hNone
      · cases hNone
      · exact hNone

end Message

namespace Schema

/-! ## Names -/

/-- The fully qualified name of the message that the names lead to: a dot, the package of the
file and a dot if it has one, and the names. -/
def qualifiedName (schema : Schema) (names : List String) : String :=
  match schema.package with
  | none => "." ++ dottedName names
  | some package => "." ++ package ++ "." ++ dottedName names

variable {schema : Schema} {scope names : List String} {path : MessagePath}

theorem stripPackage?_append {package : String} (hPackage : schema.package = some package)
    (relative : List Char) :
    schema.stripPackage? (package.toList ++ '.' :: relative) = some relative := by
  have hPrefix : package.toList ++ ['.'] <+: package.toList ++ '.' :: relative := by simp
  rw [stripPackage?, hPackage]
  simp only
  rw [if_pos (List.isPrefixOf_iff_prefix.mpr hPrefix)]
  simp [List.drop_append]

/-- The package is taken off a qualified name. -/
theorem locate?_qualifiedName (hNames : names ≠ []) (hParts : ∀ name ∈ names, IsNamePart name)
    (scope : List String) :
    schema.locate? scope (schema.qualifiedName names) =
      Message.follow? names schema.messages := by
  have hFollow : schema.followFromTop? (dottedName names).toList =
      Message.follow? names schema.messages := by
    rw [followFromTop?, splitName_dottedName hNames hParts]
  unfold qualifiedName
  split
  · next hPackage =>
      have hChars : ("." ++ dottedName names).toList = '.' :: (dottedName names).toList := by simp
      rw [locate?, hChars]
      simp only [stripPackage?, hPackage, Option.getD_none, hFollow]
  · next package hPackage =>
      have hChars : ("." ++ package ++ "." ++ dottedName names).toList =
          '.' :: (package.toList ++ '.' :: (dottedName names).toList) := by simp
      rw [locate?, hChars]
      simp only
      rw [stripPackage?_append hPackage, Option.getD_some, hFollow]

/-- The innermost of the enclosing messages is tried first. -/
theorem followFromScope?_eq_some {name : List Char}
    (hFollow : Message.follow? (scope ++ splitName name) schema.messages = some path) :
    schema.followFromScope? scope name = some path := by
  rw [followFromScope?, List.range_succ, List.reverse_append, List.reverse_singleton,
    List.singleton_append, List.findSome?_cons, List.take_length, hFollow]

/-- The rest of a path is found from the messages that the path leads through. -/
theorem locate?_dottedName (hNames : names ≠ []) (hParts : ∀ name ∈ names, IsNamePart name)
    (hFollow : Message.follow? (scope ++ names) schema.messages = some path) :
    schema.locate? scope (dottedName names) = some path := by
  unfold locate?
  split
  · next qualified hDot => exact absurd hDot (dottedName_ne_cons_dot hNames hParts qualified)
  · rw [← splitName_dottedName hNames hParts] at hFollow
    rw [followFromScope?_eq_some hFollow, Option.some_or]

/-! ## Found and not found -/

/-- A message that is located is the one that the name stands for. -/
theorem resolve?_eq_some {name : String} {message : Message}
    (hLocate : schema.locate? scope name = some path) (hAt : schema.at? path = some message) :
    schema.resolve? scope name = some message := by
  rw [resolve?, hLocate, Option.bind_some, hAt]

/-- A name without dots that is not located is not the name of any message. -/
theorem name_ne_of_locate?_eq_none {name : String} {message : Message} (hPlain : '.' ∉ name.toList)
    (hLocate : schema.locate? scope name = none) (hAt : schema.at? path = some message) :
    message.name ≠ name := by
  unfold locate? at hLocate
  split at hLocate
  · next qualified hDot => exact absurd (hDot ▸ List.mem_cons_self) hPlain
  · obtain ⟨-, hOther⟩ := Option.or_eq_none_iff.mp hLocate
    obtain ⟨-, hSearch⟩ := Option.or_eq_none_iff.mp hOther
    rw [if_neg (by simpa using hPlain)] at hSearch
    cases path with
    | nil => cases hAt
    | cons place path =>
        obtain ⟨inner, hInner, hBelow⟩ := Option.bind_eq_some_iff.mp hAt
        exact Message.name_ne_of_search?_eq_none
          (Message.search?_eq_none_of_mem hSearch (List.mem_of_getElem? hInner)) hBelow

/-- A name stands for the message at the path where it is located, or for none. -/
theorem locate?_cases (schema : Schema) (scope : List String) (name : String) :
    (schema.locate? scope name = none ∧ schema.resolve? scope name = none) ∨
      ∃ path message, schema.locate? scope name = some path ∧ schema.at? path = some message ∧
        schema.resolve? scope name = some message ∧ IsLastPart message.name name := by
  cases hLocate : schema.locate? scope name with
  | none => exact .inl ⟨rfl, by rw [resolve?, hLocate, Option.bind_none]⟩
  | some path =>
      obtain ⟨message, hAt, hLast⟩ := exists_at?_of_locate? hLocate
      exact .inr ⟨path, message, rfl, hAt, resolve?_eq_some hLocate hAt,
        isLastPart_of_getLast? hLast⟩

/-- A name without dots stands for no message just if no message has it. -/
theorem resolve?_eq_none_iff {name : String} (hPlain : '.' ∉ name.toList) :
    schema.resolve? scope name = none ↔
      ∀ path message, schema.at? path = some message → message.name ≠ name := by
  rcases schema.locate?_cases scope name with ⟨hLocate, hNone⟩ |
    ⟨path, message, -, hAt, hSome, hLast⟩
  · exact iff_of_true hNone fun _ _ hAt => name_ne_of_locate?_eq_none hPlain hLocate hAt
  · refine iff_of_false (by simp [hSome]) fun hOther => ?_
    exact hOther path message hAt (hLast.eq_of_not_mem hPlain)

/-- Names stand for the messages they tell: a first sibling in first siblings is found by its
qualified name and from each message around it, a name without dots stands for a message if any
message has it, and a message that is found has the last part of the name, stands at the path
where it was located, and can be changed there. -/
theorem resolution_exact (schema : Schema) :
    (∀ path names target, Message.LeadsFirst schema.messages path names target →
        (∀ name ∈ names, IsNamePart name) → schema.at? path = some target ∧
          (∀ scope, schema.locate? scope (schema.qualifiedName names) = some path ∧
            schema.resolve? scope (schema.qualifiedName names) = some target) ∧
          ∀ outer inner, names = outer ++ inner → inner ≠ [] →
            schema.locate? outer (dottedName inner) = some path ∧
              schema.resolve? outer (dottedName inner) = some target) ∧
      (∀ scope name, '.' ∉ name.toList → (schema.resolve? scope name = none ↔
        ∀ path message, schema.at? path = some message → message.name ≠ name)) ∧
      ∀ scope name, (schema.locate? scope name = none ∧ schema.resolve? scope name = none) ∨
        ∃ path message, schema.locate? scope name = some path ∧ schema.at? path = some message ∧
          schema.resolve? scope name = some message ∧ IsLastPart message.name name ∧
            ∀ change : Message → Message,
              schema.ChangedAt (schema.modifyAt change path) path change ∧
                ((∀ other, (change other).messages = other.messages) → ∀ place ≠ path,
                  ((schema.modifyAt change path).at? place).map Message.alone =
                    (schema.at? place).map Message.alone) := by
  refine ⟨fun path names target hLeads hParts => ?_,
    fun scope name hPlain => resolve?_eq_none_iff hPlain, fun scope name => ?_⟩
  · refine ⟨hLeads.at?_eq, fun scope => ?_, ?_⟩
    · have hLocate : schema.locate? scope (schema.qualifiedName names) = some path := by
        rw [locate?_qualifiedName hLeads.names_ne_nil hParts, hLeads.follow?_eq]
      exact ⟨hLocate, resolve?_eq_some hLocate hLeads.at?_eq⟩
    · rintro outer inner rfl hInner
      have hLocate : schema.locate? outer (dottedName inner) = some path :=
        locate?_dottedName hInner (fun name hMem => hParts name (List.mem_append_right outer hMem))
          hLeads.follow?_eq
      exact ⟨hLocate, resolve?_eq_some hLocate hLeads.at?_eq⟩
  · rcases schema.locate?_cases scope name with hNone | ⟨path, message, hLocate, hAt, hSome, hLast⟩
    · exact .inl hNone
    · have hPath : path ≠ [] := by
        rintro rfl
        cases hAt
      refine .inr ⟨path, message, hLocate, hAt, hSome, hLast, fun change => ?_⟩
      have hChanged := schema.changedAt_modifyAt hPath change
      exact ⟨hChanged, fun hKeeps _ hOther => hChanged.alone_at?_of_ne hPath hKeeps hOther⟩

/-- The second of two messages of a name is found by its qualified name and from the message
around it, and a name that no message has is not found. -/
theorem resolution_exact_second :
    ∃ schema : Schema, schema.package = some "pkg" ∧
      schema.messages = [{ Message.new "A" with messages := [.new "Inner"] },
        { Message.new "B" with messages := [.new "Inner"] }] ∧
      schema.locate? ["A"] ".pkg.B.Inner" = some [1, 0] ∧
      schema.locate? ["B"] "Inner" = some [1, 0] ∧
      (schema.resolve? ["B"] "Other" = none ↔
        ∀ path message, schema.at? path = some message → message.name ≠ "Other") := by
  let first : Message := { Message.new "A" with messages := [.new "Inner"] }
  let second : Message := { Message.new "B" with messages := [.new "Inner"] }
  let schema : Schema :=
    { Schema.new .proto3 with package := some "pkg", messages := [first, second] }
  have hInner : Message.LeadsFirst second.messages [0] [(Message.new "Inner").name]
      (.new "Inner") := .last rfl (by simp)
  have hLeads : Message.LeadsFirst schema.messages [1, 0] [second.name, "Inner"] (.new "Inner") :=
    .step rfl (by simp [schema, first, second, Message.new]) hInner
  have hParts : ∀ name ∈ ["B", "Inner"], IsNamePart name := by simp [IsNamePart]
  obtain ⟨hPath, hPlain, -⟩ := schema.resolution_exact
  obtain ⟨-, hQualified, hScoped⟩ := hPath [1, 0] ["B", "Inner"] _ hLeads hParts
  exact ⟨schema, rfl, rfl, (hQualified ["A"]).1, (hScoped ["B"] ["Inner"] rfl (by simp)).1,
    hPlain ["B"] "Other" (by decide)⟩

end Schema
end ProtoIdl
