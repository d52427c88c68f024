import ProtoIdl.Schema.Link

/-!
# Blocks in the order of linking

`schema.paths` lists the paths to the messages of a schema.  Every message is in it
(`mem_paths_iff`), and the list is strictly increasing in the lexicographic order
(`pairwise_paths`).  So each message is listed once and in depth-first order: before those that
are nested in it, which come before the next one beside it.  No other list has these two
properties (`eq_paths`).

The blocks that linking goes through are those at the top level, and then along these paths
those of each message, with the names of the messages on the path around them
(`scopedBlocks_eq`).
-/

namespace ProtoIdl

namespace Message

/-! ## Paths to messages -/

mutual

/-- The paths from a message to itself and to every message below it, in depth-first order. -/
def paths : Message → List MessagePath
  | ⟨_, messages, _, _, _, _, _, _, _⟩ => [] :: pathsIn 0 messages

/-- The paths to the messages of a list and below them; the first of them stands at `index`. -/
def pathsIn (index : Nat) : List Message → List MessagePath
  | [] => []
  | message :: rest =>
      (paths message).map (fun path => index :: path) ++ pathsIn (index + 1) rest

end

theorem paths_eq (message : Message) : message.paths = [] :: pathsIn 0 message.messages := by
  cases message
  rfl

theorem mem_pathsIn {level : List Message} {index : Nat} {path : MessagePath} :
    path ∈ pathsIn index level ↔
      ∃ place message below, level[place]? = some message ∧ below ∈ message.paths ∧
        path = (index + place) :: below := by
  induction level generalizing index with
  | nil => simp [pathsIn]
  | cons first rest ih =>
      have hLater : ∀ place, index + 1 + place = index + (place + 1) := by omega
      simp only [pathsIn, List.mem_append, List.mem_map, ih, hLater]
      constructor
      · rintro (⟨below, hBelow, rfl⟩ | ⟨place, message, below, hPlace, hBelow, rfl⟩)
        · exact ⟨0, first, below, rfl, hBelow, rfl⟩
        · exact ⟨place + 1, message, below, hPlace, hBelow, rfl⟩
      · rintro ⟨place, message, below, hPlace, hBelow, rfl⟩
        cases place with
        | zero =>
            cases hPlace
            exact .inl ⟨below, hBelow, rfl⟩
        | succ place => exact .inr ⟨place, message, below, hPlace, hBelow, rfl⟩

/-- The paths that are listed are those that lead to a message. -/
theorem mem_paths_iff {path : MessagePath} (message : Message) :
    path ∈ message.paths ↔ (message.at? path).isSome := by
  induction path generalizing message with
  | nil => simp [paths_eq, at?]
  | cons index path ih =>
      rw [paths_eq, List.mem_cons, mem_pathsIn, at?]
      constructor
      · rintro (hNil | ⟨place, inner, below, hPlace, hBelow, hPath⟩)
        · cases hNil
        · obtain ⟨hIndex, rfl⟩ := List.cons.inj hPath
          rw [hIndex, Nat.zero_add, hPlace]
          exact (ih inner).mp hBelow
      · intro hSome
        cases hInner : message.messages[index]? with
        | none =>
            rw [hInner] at hSome
            cases hSome
        | some inner =>
            rw [hInner] at hSome
            exact .inr ⟨index, inner, path, hInner, (ih inner).mpr hSome, by rw [Nat.zero_add]⟩

mutual

/-- A message comes before those below it. -/
theorem pairwise_paths (message : Message) : message.paths.Pairwise (· < ·) :=
  match message with
  | ⟨_, messages, _, _, _, _, _, _, _⟩ => by
      rw [paths, List.pairwise_cons]
      refine ⟨fun path hPath => ?_, pairwise_pathsIn 0 messages⟩
      obtain ⟨place, inner, below, -, -, rfl⟩ := mem_pathsIn.mp hPath
      exact List.nil_lt_cons _ _
termination_by structural message

/-- A message and those below it come before the messages after it. -/
theorem pairwise_pathsIn (index : Nat) (level : List Message) :
    (pathsIn index level).Pairwise (· < ·) :=
  match level with
  | [] => .nil
  | message :: rest => by
      rw [pathsIn, List.pairwise_append]
      refine ⟨?_, pairwise_pathsIn (index + 1) rest, ?_⟩
      · exact (pairwise_paths message).map _ fun first second hLess =>
          List.cons_lt_cons_iff.mpr (.inr ⟨rfl, hLess⟩)
      · -- the first step of a path into the list tells the messages of the list apart
        intro first hFirst second hSecond
        obtain ⟨below, -, rfl⟩ := List.mem_map.mp hFirst
        obtain ⟨place, inner, other, -, -, rfl⟩ := mem_pathsIn.mp hSecond
        exact List.cons_lt_cons_iff.mpr (.inl (by omega))
termination_by structural level

end

/-! ## Blocks along the paths -/

/-- The names of the messages along a path, from this one to the one that it leads to. -/
def namesAlong : MessagePath → Message → List String
  | [], message => [message.name]
  | index :: path, message => message.name :: message.messages[index]?.elim [] (namesAlong path)

/-- The blocks of the message that a path leads to, with the names of `scope` and those along
the path around them. -/
def blocksAlong (scope : List String) (path : MessagePath) (message : Message) :
    List (List String × ExtendBlock) :=
  match message.at? path with
  | none => []
  | some target => target.extendBlocks.map fun block => (scope ++ message.namesAlong path, block)

theorem blocksAlong_cons {scope : List String} {index : Nat} {path : MessagePath}
    {message inner : Message} (hInner : message.messages[index]? = some inner) :
    message.blocksAlong scope (index :: path) =
      inner.blocksAlong (scope ++ [message.name]) path := by
  simp [blocksAlong, at?, namesAlong, hInner]

mutual

theorem scopedBlocks_eq (scope : List String) (message : Message) :
    message.scopedBlocks scope =
      message.paths.flatMap fun path => message.blocksAlong scope path :=
  match message with
  | ⟨name, messages, enums, fields, blocks, extensions, reserved, options, comments⟩ => by
      rw [scopedBlocks, paths, List.flatMap_cons]
      congr 1
      exact scopedBlocksIn_eq (scope ++ [name]) 0 messages _ fun place inner path hInner => by
        rw [Nat.zero_add]
        exact blocksAlong_cons hInner
termination_by structural message

/-- The blocks of a list of messages lie along the paths into the list. -/
theorem scopedBlocksIn_eq (scope : List String) (index : Nat) (level : List Message)
    (along : MessagePath → List (List String × ExtendBlock))
    (hAlong : ∀ place message path, level[place]? = some message →
      along ((index + place) :: path) = message.blocksAlong scope path) :
    scopedBlocksIn scope level = (pathsIn index level).flatMap along :=
  match level with
  | [] => rfl
  | message :: rest => by
      rw [scopedBlocksIn, pathsIn, List.flatMap_append, List.flatMap_map,
        scopedBlocks_eq scope message]
      congr 1
      · have hFirst : (fun path => message.blocksAlong scope path) = fun path =>
            along (index :: path) := funext fun path => (hAlong 0 message path rfl).symm
        rw [hFirst]
      · refine scopedBlocksIn_eq scope (index + 1) rest along fun place inner path hInner => ?_
        have hPlace : index + 1 + place = index + (place + 1) := by omega
        rw [hPlace]
        exact hAlong (place + 1) inner path hInner
termination_by structural level

end

end Message

namespace Schema

/-- The paths to all messages of a schema, in depth-first order. -/
def paths (schema : Schema) : List MessagePath :=
  Message.pathsIn 0 schema.messages

/-- The names of the messages along a path. -/
def namesAlong (schema : Schema) : MessagePath → List String
  | [] => []
  | index :: path => schema.messages[index]?.elim [] (Message.namesAlong path)

/-- The paths that are listed are those that lead to a message. -/
theorem mem_paths_iff {path : MessagePath} (schema : Schema) :
    path ∈ schema.paths ↔ (schema.at? path).isSome := by
  rw [paths, Message.mem_pathsIn]
  constructor
  · rintro ⟨place, message, below, hPlace, hBelow, rfl⟩
    rw [Nat.zero_add, at?, hPlace]
    exact (message.mem_paths_iff).mp hBelow
  · intro hSome
    cases path with
    | nil => cases hSome
    | cons index path =>
        rw [at?] at hSome
        cases hMessage : schema.messages[index]? with
        | none =>
            rw [hMessage] at hSome
            cases hSome
        | some message =>
            rw [hMessage] at hSome
            exact ⟨index, message, path, hMessage, (message.mem_paths_iff).mpr hSome,
              by rw [Nat.zero_add]⟩

theorem pairwise_paths (schema : Schema) : schema.paths.Pairwise (· < ·) :=
  Message.pairwise_pathsIn 0 schema.messages

/-- No other list holds the paths to all messages in this order. -/
theorem eq_paths {schema : Schema} {listed : List MessagePath}
    (hMem : ∀ path, path ∈ listed ↔ (schema.at? path).isSome)
    (hOrder : listed.Pairwise (· < ·)) : listed = schema.paths := by
  have hNodup : ∀ list : List MessagePath, list.Pairwise (· < ·) → list.Nodup := by
    intro list hList
    refine List.Pairwise.imp ?_ hList
    rintro first _ hLess rfl
    exact List.lt_irrefl first hLess
  have hPerm : listed.Perm schema.paths := by
    rw [List.perm_ext_iff_of_nodup (hNodup _ hOrder) (hNodup _ schema.pairwise_paths)]
    exact fun path => (hMem path).trans schema.mem_paths_iff.symm
  exact hPerm.eq_of_pairwise (fun first second _ _ hLess hGreater =>
    absurd hGreater (List.lt_asymm hLess)) hOrder schema.pairwise_paths

/-- Linking goes through the blocks at the top level, and then through those of every message
once, in depth-first order.  Around a block of a message are the names along the path to it. -/
theorem scopedBlocks_eq (schema : Schema) :
    schema.scopedBlocks = (schema.extendBlocks.map fun block => ([], block)) ++
      schema.paths.flatMap fun path =>
        match schema.at? path with
        | none => []
        | some target => target.extendBlocks.map fun block => (schema.namesAlong path, block) := by
  rw [scopedBlocks]
  congr 1
  refine Message.scopedBlocksIn_eq [] 0 schema.messages _ fun place message path hMessage => ?_
  simp only [Nat.zero_add, at?, hMessage, namesAlong, Message.blocksAlong, List.nil_append]
  rfl

end Schema
end ProtoIdl
