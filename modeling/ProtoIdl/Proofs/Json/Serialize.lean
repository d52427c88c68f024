import ProtoIdl.Proofs.Json.Rendering
import ProtoIdl.Schema.Json

/-!
# The serialized form of a schema

A schema can be told from its JSON form, and so from its text: nothing is lost.  Option
values carry no mark of their kind, but booleans, texts, maps and lists become JSON values of
four different kinds.  An absent value becomes `null`, which nothing else becomes.  In each
structure the members stand in a fixed order, and option maps keep their own.
-/

namespace ProtoIdl

/-! ## Values that may be absent, and lists -/

namespace Json

/-- A value that may be absent can be told from its form if no value is written as `null`. -/
theorem ofOption_inj {encode : α → Json} (hEncode : Function.Injective encode)
    (hNull : ∀ value, encode value ≠ null) {first second : Option α} :
    ofOption encode first = ofOption encode second ↔ first = second := by
  refine ⟨fun hSame => ?_, fun hEq => hEq ▸ rfl⟩
  cases first with
  | none =>
      cases second with
      | none => rfl
      | some other => exact absurd hSame.symm (hNull other)
  | some value =>
      cases second with
      | none => exact absurd hSame (hNull value)
      | some other => exact congrArg some (hEncode hSame)

/-- A list can be told from its form if its items can. -/
theorem ofList_inj {encode : α → Json} (hEncode : Function.Injective encode)
    {first second : List α} : ofList encode first = ofList encode second ↔ first = second := by
  rw [ofList, ofList, array.injEq]
  exact (List.map_injective_iff.mpr hEncode).eq_iff

theorem text_injective : Function.Injective text :=
  fun _ _ => text.inj

@[simp] theorem ofOption_text_inj {first second : Option String} :
    ofOption text first = ofOption text second ↔ first = second :=
  ofOption_inj text_injective nofun

@[simp] theorem ofStrings_inj {first second : List String} :
    ofStrings first = ofStrings second ↔ first = second :=
  ofList_inj text_injective

end Json

/-! ## Options -/

mutual

theorem OptionValue.eq_of_toJson (first second : OptionValue)
    (hSame : first.toJson = second.toJson) : first = second := by
  match first, second with
  | .bool value, .bool other => simpa [OptionValue.toJson] using hSame
  | .text value, .text other => simpa [OptionValue.toJson] using hSame
  | .map value, .map other => exact congrArg _ (OptionMap.eq_of_toJson value other hSame)
  | .list blocks, .list others =>
      exact congrArg _ (OptionMap.eq_of_blocksToJson blocks others (Json.array.inj hSame))
  | .bool _, .text _ | .bool _, .map ⟨_⟩ | .bool _, .list _ => cases hSame
  | .text _, .bool _ | .text _, .map ⟨_⟩ | .text _, .list _ => cases hSame
  | .map ⟨_⟩, .bool _ | .map ⟨_⟩, .text _ | .map ⟨_⟩, .list _ => cases hSame
  | .list _, .bool _ | .list _, .text _ | .list _, .map ⟨_⟩ => cases hSame
termination_by structural first

theorem OptionMap.eq_of_toJson (first second : OptionMap)
    (hSame : first.toJson = second.toJson) : first = second := by
  match first, second with
  | ⟨entries⟩, ⟨others⟩ =>
      exact congrArg _ (OptionMap.eq_of_entriesToJson entries others (Json.object.inj hSame))
termination_by structural first

theorem OptionMap.eq_of_entriesToJson (first second : List (String × OptionValue))
    (hSame : OptionMap.entriesToJson first = OptionMap.entriesToJson second) :
    first = second := by
  match first, second with
  | [], [] => rfl
  | [], _ :: _ | _ :: _, [] => cases hSame
  | (key, value) :: rest, (otherKey, other) :: others =>
      obtain ⟨hEntry, hRest⟩ := List.cons_eq_cons.mp hSame
      obtain ⟨rfl, hValue⟩ := Prod.ext_iff.mp hEntry
      rw [OptionValue.eq_of_toJson value other hValue,
        OptionMap.eq_of_entriesToJson rest others hRest]
termination_by structural first

theorem OptionMap.eq_of_blocksToJson (first second : List OptionMap)
    (hSame : OptionMap.blocksToJson first = OptionMap.blocksToJson second) :
    first = second := by
  match first, second with
  | [], [] => rfl
  | [], _ :: _ | _ :: _, [] => cases hSame
  | block :: rest, other :: others =>
      obtain ⟨hBlock, hRest⟩ := List.cons_eq_cons.mp hSame
      rw [OptionMap.eq_of_toJson block other hBlock,
        OptionMap.eq_of_blocksToJson rest others hRest]
termination_by structural first

end

@[simp] theorem OptionMap.toJson_inj {first second : OptionMap} :
    first.toJson = second.toJson ↔ first = second :=
  ⟨first.eq_of_toJson second, fun hEq => hEq ▸ rfl⟩

/-! ## Fields and enums -/

@[simp] theorem FieldType.toJson_inj {first second : FieldType} :
    first.toJson = second.toJson ↔ first = second := by
  cases first <;> cases second <;> simp [toJson]

theorem Field.toJson_injective : Function.Injective Field.toJson := by
  rintro ⟨⟩ ⟨⟩ hSame
  simpa [toJson, Int.natCast_inj] using hSame

theorem ExtensionRange.toJson_injective : Function.Injective ExtensionRange.toJson := by
  rintro ⟨⟩ ⟨⟩ hSame
  simpa [toJson, Int.natCast_inj] using hSame

theorem Reserved.toJson_injective : Function.Injective Reserved.toJson := by
  rintro (names | range) (names' | range') hSame
  · simpa [toJson] using hSame
  · simp [toJson] at hSame
  · simp [toJson] at hSame
  · simpa [toJson] using hSame

theorem EnumValue.toJson_injective : Function.Injective EnumValue.toJson := by
  rintro ⟨⟩ ⟨⟩ hSame
  simpa [toJson] using hSame

theorem EnumDecl.toJson_injective : Function.Injective EnumDecl.toJson := by
  rintro ⟨⟩ ⟨⟩ hSame
  simpa [toJson, Json.ofList_inj EnumValue.toJson_injective,
    Json.ofList_inj Reserved.toJson_injective] using hSame

/-! ## Messages -/

mutual

theorem Message.eq_of_toJson (first second : Message)
    (hSame : first.toJson = second.toJson) : first = second := by
  match first, second with
  | ⟨name, messages, enums, fields, extendBlocks, extensions, reserved, options, comments⟩,
      ⟨name', messages', enums', fields', extendBlocks', extensions', reserved', options',
        comments'⟩ =>
      simp only [Message.toJson, Json.object.injEq, List.cons.injEq, Prod.mk.injEq, true_and,
        and_true, Json.text.injEq, Json.array.injEq, OptionMap.toJson_inj, Json.ofStrings_inj,
        Json.ofList_inj EnumDecl.toJson_injective, Json.ofList_inj Field.toJson_injective,
        Json.ofList_inj ExtensionRange.toJson_injective,
        Json.ofList_inj Reserved.toJson_injective] at hSame
      obtain ⟨rfl, hMessages, rfl, rfl, hBlocks, rfl, rfl, rfl, rfl⟩ := hSame
      rw [Message.eq_of_listToJson messages messages' hMessages,
        ExtendBlock.eq_of_listToJson extendBlocks extendBlocks' hBlocks]
termination_by structural first

theorem ExtendBlock.eq_of_toJson (first second : ExtendBlock)
    (hSame : first.toJson = second.toJson) : first = second := by
  match first, second with
  | ⟨target, body⟩, ⟨target', body'⟩ =>
      simp only [ExtendBlock.toJson, Json.object.injEq, List.cons.injEq, Prod.mk.injEq, true_and,
        and_true, Json.text.injEq] at hSame
      obtain ⟨rfl, hBody⟩ := hSame
      rw [Message.eq_of_toJson body body' hBody]
termination_by structural first

theorem Message.eq_of_listToJson (first second : List Message)
    (hSame : Message.listToJson first = Message.listToJson second) : first = second := by
  match first, second with
  | [], [] => rfl
  | [], _ :: _ | _ :: _, [] => cases hSame
  | message :: rest, other :: others =>
      obtain ⟨hMessage, hRest⟩ := List.cons_eq_cons.mp hSame
      rw [Message.eq_of_toJson message other hMessage, Message.eq_of_listToJson rest others hRest]
termination_by structural first

theorem ExtendBlock.eq_of_listToJson (first second : List ExtendBlock)
    (hSame : ExtendBlock.listToJson first = ExtendBlock.listToJson second) : first = second := by
  match first, second with
  | [], [] => rfl
  | [], _ :: _ | _ :: _, [] => cases hSame
  | block :: rest, other :: others =>
      obtain ⟨hBlock, hRest⟩ := List.cons_eq_cons.mp hSame
      rw [ExtendBlock.eq_of_toJson block other hBlock,
        ExtendBlock.eq_of_listToJson rest others hRest]
termination_by structural first

end

/-! ## Services and files -/

theorem RpcArgument.toJson_injective : Function.Injective RpcArgument.toJson := by
  rintro ⟨⟩ ⟨⟩ hSame
  simpa [toJson] using hSame

theorem RpcMethod.toJson_injective : Function.Injective RpcMethod.toJson := by
  rintro ⟨⟩ ⟨⟩ hSame
  simpa [toJson, Json.ofList_inj RpcArgument.toJson_injective,
    RpcArgument.toJson_injective.eq_iff] using hSame

theorem Service.toJson_injective : Function.Injective Service.toJson := by
  rintro ⟨⟩ ⟨⟩ hSame
  simpa [toJson, Json.ofList_inj RpcMethod.toJson_injective] using hSame

theorem LanguageVersion.toJson_inj {first second : LanguageVersion} :
    first.toJson = second.toJson ↔ first = second := by
  cases first <;> cases second <;> simp [toJson]

theorem ImportModifier.toJson_injective : Function.Injective ImportModifier.toJson := by
  rintro ⟨⟩ ⟨⟩ hSame <;> first | rfl | simp [toJson] at hSame

theorem Import.toJson_injective : Function.Injective Import.toJson := by
  rintro ⟨⟩ ⟨⟩ hSame
  have hNull : ∀ modifier : ImportModifier, modifier.toJson ≠ .null := by
    rintro ⟨⟩ <;> nofun
  simpa [toJson, Json.ofOption_inj ImportModifier.toJson_injective hNull] using hSame

theorem Schema.toJson_injective : Function.Injective Schema.toJson := by
  rintro ⟨version, package, imports, messages, enums, services, extendBlocks, options, comments⟩
    ⟨version', package', imports', messages', enums', services', extendBlocks', options',
      comments'⟩ hSame
  simp only [toJson, Json.object.injEq, List.cons.injEq, Prod.mk.injEq, true_and, and_true,
    Json.array.injEq, LanguageVersion.toJson_inj, Json.ofOption_text_inj, OptionMap.toJson_inj,
    Json.ofStrings_inj, Json.ofList_inj Import.toJson_injective,
    Json.ofList_inj EnumDecl.toJson_injective,
    Json.ofList_inj Service.toJson_injective] at hSame
  obtain ⟨rfl, rfl, rfl, hMessages, rfl, rfl, hBlocks, rfl, rfl⟩ := hSame
  rw [Message.eq_of_listToJson messages messages' hMessages,
    ExtendBlock.eq_of_listToJson extendBlocks extendBlocks' hBlocks]

/-- Schemas have the same serialized form only if they are the same, the order of option
bindings included. -/
theorem Schema.serialize_inj {first second : Schema} :
    first.serialize = second.serialize ↔ first = second := by
  rw [serialize, serialize, Json.compact_inj]
  exact Schema.toJson_injective.eq_iff

end ProtoIdl
