import Mathlib.Data.List.Forall2
import ProtoIdl.Proofs.Nesting
import ProtoIdl.Schema.Resolve

/-!
# What resolution looks at

Resolving a name looks at the names of messages and at how the messages nest, and at nothing
else.  A relation between messages keeps names when related messages have the same name and,
one by one, related messages inside.  In levels of related messages every search leads along
the same path, and the messages at a path are related again.
-/

namespace ProtoIdl
namespace Message

/-- Related messages have the same name, and related messages inside. -/
structure KeepsNames (Related : Message → Message → Prop) : Prop where
  name {one other : Message} (hRelated : Related one other) : one.name = other.name
  messages {one other : Message} (hRelated : Related one other) :
    List.Forall₂ Related one.messages other.messages

variable {Related : Message → Message → Prop} {first second : List Message}

/-! ## Positions -/

/-- Two answers that are related are both absent or are answers that are related. -/
theorem rel_cases {related : α → β → Prop} {answer : Option α} {other : Option β}
    (hRel : Option.Rel related answer other) :
    (answer = none ∧ other = none) ∨
      ∃ found same, answer = some found ∧ other = some same ∧ related found same := by
  cases hRel with
  | none => exact .inl ⟨rfl, rfl⟩
  | some hRelated => exact .inr ⟨_, _, rfl, rfl, hRelated⟩

theorem rel_getElem? (hLevel : List.Forall₂ Related first second) (place : Nat) :
    Option.Rel Related first[place]? second[place]? := by
  induction hLevel generalizing place with
  | nil => exact .none
  | cons hHead hTail ih =>
      cases place with
      | zero => exact .some hHead
      | succ place => exact ih place

/-- The messages at one path below related messages are related. -/
theorem KeepsNames.rel_at? (hNames : KeepsNames Related) {one other : Message}
    (hRelated : Related one other) (path : MessagePath) :
    Option.Rel Related (one.at? path) (other.at? path) := by
  induction path generalizing one other with
  | nil => exact .some hRelated
  | cons place path ih =>
      rw [at?, at?]
      rcases rel_cases (rel_getElem? (hNames.messages hRelated) place) with
        ⟨hOne, hOther⟩ | ⟨inner, same, hOne, hOther, hInner⟩
      · rw [hOne, hOther]
        exact .none
      · rw [hOne, hOther]
        exact ih hInner

/-! ## Names -/

/-- The first message of a name stands at the same place, and the two are related. -/
theorem KeepsNames.rel_firstNamed? (hNames : KeepsNames Related)
    (hLevel : List.Forall₂ Related first second) (name : String) :
    Option.Rel (fun found other => found.1 = other.1 ∧ Related found.2 other.2)
      (firstNamed? name first) (firstNamed? name second) := by
  induction hLevel with
  | nil => exact .none
  | @cons one other rest others hHead hTail ih =>
      rw [firstNamed?, firstNamed?, hNames.name hHead]
      by_cases hName : other.name = name
      · rw [if_pos hName, if_pos hName]
        exact .some ⟨rfl, hHead⟩
      · rw [if_neg hName, if_neg hName]
        rcases rel_cases ih with ⟨hOne, hOther⟩ | ⟨found, same, hOne, hOther, hFound⟩
        · rw [hOne, hOther]
          exact .none
        · rw [hOne, hOther]
          exact .some ⟨congrArg (· + 1) hFound.1, hFound.2⟩

/-- Following names leads along the same path. -/
theorem KeepsNames.follow?_eq (hNames : KeepsNames Related)
    (hLevel : List.Forall₂ Related first second) (names : List String) :
    follow? names second = follow? names first := by
  induction names generalizing first second with
  | nil => rfl
  | cons name names ih =>
      rw [follow?, follow?]
      rcases rel_cases (hNames.rel_firstNamed? hLevel name) with
        ⟨hOne, hOther⟩ | ⟨found, same, hOne, hOther, hPlace, hInner⟩
      · rw [hOne, hOther]
      · rw [hOne, hOther, Option.bind_some, Option.bind_some, ih (hNames.messages hInner), hPlace]

/-- A search in levels goes as the searches in the messages of the level go. -/
theorem searchLevel?_eq {name : String} (hLevel : List.Forall₂ Related first second)
    (hSearch : ∀ one ∈ first, ∀ other, Related one other →
      search? name other = search? name one) :
    searchLevel? name second = searchLevel? name first := by
  induction hLevel with
  | nil => rfl
  | @cons one other rest others hHead hTail ih =>
      have hRest := ih fun later hMem => hSearch later (List.mem_cons_of_mem one hMem)
      rw [searchLevel?, searchLevel?, hSearch one List.mem_cons_self other hHead, hRest]

theorem KeepsNames.search?_eq (hNames : KeepsNames Related) (name : String) (one : Message) :
    ∀ other, Related one other → search? name other = search? name one := by
  induction one using induction_on_parts with
  | hStep one ihMessages ihBlocks =>
      intro other hRelated
      have hLevel := searchLevel?_eq (hNames.messages hRelated) ihMessages
      have hName := hNames.name hRelated
      cases one
      cases other
      dsimp only at hLevel hName
      rw [search?, search?, hLevel, hName]

end Message

namespace Schema

variable {Related : Message → Message → Prop} {first second : Schema}

/-- The messages at one path are related, if there are any. -/
theorem rel_at? (hNames : Message.KeepsNames Related)
    (hMessages : List.Forall₂ Related first.messages second.messages) (path : MessagePath) :
    Option.Rel Related (first.at? path) (second.at? path) := by
  cases path with
  | nil => exact .none
  | cons place path =>
      rw [at?, at?]
      rcases Message.rel_cases (Message.rel_getElem? hMessages place) with
        ⟨hOne, hOther⟩ | ⟨inner, same, hOne, hOther, hInner⟩
      · rw [hOne, hOther]
        exact .none
      · rw [hOne, hOther]
        exact hNames.rel_at? hInner path

/-- Every name, from every scope, resolves to the same path in schemas of related messages. -/
theorem locate?_eq (hNames : Message.KeepsNames Related) (hPackage : second.package = first.package)
    (hMessages : List.Forall₂ Related first.messages second.messages) (scope : List String)
    (name : String) : second.locate? scope name = first.locate? scope name := by
  have hFollow := hNames.follow?_eq hMessages
  have hTop : second.followFromTop? = first.followFromTop? := by
    funext chars
    exact hFollow (splitName chars)
  have hScope : second.followFromScope? = first.followFromScope? := by
    funext scope chars
    simp only [followFromScope?, hFollow]
  have hStrip : second.stripPackage? = first.stripPackage? := by
    funext chars
    rw [stripPackage?, stripPackage?, hPackage]
  have hSearch : Message.searchLevel? name second.messages =
      Message.searchLevel? name first.messages :=
    Message.searchLevel?_eq hMessages fun one _ => hNames.search?_eq name one
  unfold locate?
  rw [hTop, hScope, hStrip, hSearch]

end Schema
end ProtoIdl
