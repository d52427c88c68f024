import ProtoIdl.Proofs.Parser.FileLoop
import ProtoIdl.Proofs.Token.Joining

/-!
# Groups of joined tokens

Joining partitions a list of tokens into groups and makes one token of each.  A group is one
token, or it goes from a token that opens a string to the first later one that closes one.  A
token that opens a string is left alone only where no later token closes one.
-/

namespace ProtoIdl
namespace Token

/-- Tokens that make one token: a single one, or one that opens a string and those after it up
to the first that closes one. -/
inductive IsGroup : List Token → Prop
  | single (token : Token) : IsGroup [token]
  | pieces {first last : Token} {middle : List Token} (hFirst : first.opensQuote = true)
      (hMiddle : ∀ token ∈ middle, token.closesQuote = false)
      (hLast : last.closesQuote = true) : IsGroup (first :: (middle ++ [last]))

/-- The tokens are the groups, one after the other, and no string that is closed is left open. -/
structure IsGrouping (tokens : List Token) (groups : List (List Token)) : Prop where
  flatten_eq : groups.flatten = tokens
  isGroup : ∀ group ∈ groups, IsGroup group
  leftOpen : groups.Pairwise fun group later =>
    ∀ token, group = [token] → token.opensQuote = true → ∀ other ∈ later,
      other.closesQuote = false

/-- A group of more than one token starts with one that opens a string. -/
theorem IsGroup.opensQuote {first second : Token} {rest : List Token}
    (hGroup : IsGroup (first :: second :: rest)) : first.opensQuote = true := by
  generalize hTokens : first :: second :: rest = group at hGroup
  cases hGroup with
  | single token => cases hTokens
  | pieces hFirst hMiddle hLast =>
      obtain ⟨rfl, -⟩ := List.cons.inj hTokens
      exact hFirst

namespace IsGrouping

variable {tokens rest : List Token} {groups : List (List Token)}

theorem nil : IsGrouping [] [] :=
  ⟨rfl, by simp, .nil⟩

/-- A token that opens nothing, or nothing that is closed later, is a group. -/
theorem single {token : Token} (hRest : IsGrouping rest groups)
    (hOpen : token.opensQuote = true → ∀ later ∈ rest, later.closesQuote = false) :
    IsGrouping (token :: rest) ([token] :: groups) where
  flatten_eq := by simp [hRest.flatten_eq]
  isGroup := List.forall_mem_cons.mpr ⟨.single token, hRest.isGroup⟩
  leftOpen := by
    refine List.pairwise_cons.mpr ⟨fun group hMem other hSame hOpens later hLater => ?_,
      hRest.leftOpen⟩
    cases hSame
    refine hOpen hOpens later ?_
    rw [← hRest.flatten_eq]
    exact List.mem_flatten_of_mem hMem hLater

/-- The pieces of a literal are a group. -/
theorem pieces {first last : Token} {middle : List Token} (hRest : IsGrouping rest groups)
    (hFirst : first.opensQuote = true) (hMiddle : ∀ token ∈ middle, token.closesQuote = false)
    (hLast : last.closesQuote = true) :
    IsGrouping (first :: (middle ++ last :: rest)) ((first :: (middle ++ [last])) :: groups) where
  flatten_eq := by simp [hRest.flatten_eq]
  isGroup := List.forall_mem_cons.mpr ⟨.pieces hFirst hMiddle hLast, hRest.isGroup⟩
  leftOpen := by
    refine List.pairwise_cons.mpr ⟨fun group _ token hSame => ?_, hRest.leftOpen⟩
    simp at hSame

end IsGrouping

theorem exists_grouping (tokens : List Token) : ∃ groups, IsGrouping tokens groups := by
  induction tokens using coalesce_induction with
  | nil => exact ⟨[], .nil⟩
  | plain token rest hPlain ih =>
      obtain ⟨groups, hGroups⟩ := ih
      refine ⟨[token] :: groups, hGroups.single fun hOpens => ?_⟩
      rw [hPlain] at hOpens
      cases hOpens
  | leftOpen token rest _ hOpen ih =>
      obtain ⟨groups, hGroups⟩ := ih
      exact ⟨[token] :: groups, hGroups.single fun _ => hOpen⟩
  | pieces first middle last later hFirst hMiddle hLast ih =>
      obtain ⟨groups, hGroups⟩ := ih
      exact ⟨(first :: (middle ++ [last])) :: groups, hGroups.pieces hFirst hMiddle hLast⟩

/-- Joining makes one token of each group. -/
theorem coalesce_of_isGrouping {tokens : List Token} {groups : List (List Token)}
    (hGroups : IsGrouping tokens groups) : coalesce tokens = groups.map String.join := by
  obtain ⟨rfl, hGroup, hOpen⟩ := hGroups
  induction groups with
  | nil => simp [coalesce]
  | cons group groups ih =>
      obtain ⟨hFirst, hRest⟩ := List.forall_mem_cons.mp hGroup
      obtain ⟨hAlone, hLater⟩ := List.pairwise_cons.mp hOpen
      cases hFirst with
      | single token =>
          have hStays : coalesce (token :: groups.flatten) = token :: coalesce groups.flatten := by
            cases hOpens : token.opensQuote with
            | false => exact coalesce_cons hOpens _
            | true =>
                refine coalesce_cons_of_open fun later hMem => ?_
                obtain ⟨other, hOther, hIn⟩ := List.mem_flatten.mp hMem
                exact hAlone other hOther token rfl hOpens later hIn
          rw [List.flatten_cons, List.singleton_append, hStays, ih hRest hLater, List.map_cons,
            String.join_cons, String.join_nil, String.append_empty]
      | pieces hFirst hMiddle hLast =>
          rw [List.flatten_cons, List.cons_append, List.append_assoc, List.singleton_append,
            coalesce_pieces hFirst hMiddle hLast, ih hRest hLater, List.map_cons]

/-- Tokens can be grouped, and joining makes one token of each group.  Doing it again changes
nothing, and neither does doing it to the tokens of a source, which are parsed as they are. -/
theorem coalesce_groups (tokens : List Token) :
    (∃ groups, IsGrouping tokens groups) ∧
      (∀ groups, IsGrouping tokens groups → coalesce tokens = groups.map String.join) ∧
      coalesce (coalesce tokens) = coalesce tokens ∧
      ∀ source, tokenize source = .ok tokens → coalesce tokens = tokens ∧
        ∀ settings, parse source settings =
          (readFile tokens settings).bind fun schema =>
            if settings.link then schema.linked else .ok schema :=
  ⟨exists_grouping tokens, fun _ => coalesce_of_isGrouping, coalesce_coalesce tokens,
    fun _ hTokens => ⟨coalesce_of_tokenize hTokens, fun _ => parse_of_tokenize hTokens⟩⟩

end Token
end ProtoIdl
