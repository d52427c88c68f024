import ProtoIdl.Grammar.Enum

/-!
# Names given twice

What is added to a scope is refused only for a name that the scope has already.
-/

namespace ProtoIdl

/-- The error is that a name is given twice. -/
def ParseError.IsDuplicate (fault : ParseError) : Prop :=
  ∃ kind name, fault = .duplicate kind name

theorem OptionMap.isDuplicate_of_bind {options : OptionMap} {key : String} {value : OptionValue}
    {fault : ParseError} (hFault : options.bind key value = .error fault) :
    fault.IsDuplicate := by
  unfold OptionMap.bind at hFault
  split at hFault
  · cases hFault
    exact ⟨_, _, rfl⟩
  · cases hFault

theorem OptionMap.isDuplicate_of_pushBlock {options inner : OptionMap} {key : String}
    {fault : ParseError} (hFault : options.pushBlock key inner = .error fault) :
    fault.IsDuplicate := by
  unfold OptionMap.pushBlock at hFault
  split at hFault
  · cases hFault
  · cases hFault
  · cases hFault
    exact ⟨_, _, rfl⟩

namespace Grammar

theorem isDuplicate_of_store {form : NestedForm} {options inner : OptionMap} {key : String}
    {fault : ParseError} (hFault : form.store options key inner = .error fault) :
    fault.IsDuplicate := by
  cases form with
  | value => exact OptionMap.isDuplicate_of_bind hFault
  | block => exact OptionMap.isDuplicate_of_pushBlock hFault

theorem isDuplicate_of_addEnumValue {decl : EnumDecl} {value : EnumValue} {fault : ParseError}
    (hFault : addEnumValue decl value = .error fault) : fault.IsDuplicate := by
  unfold addEnumValue at hFault
  split at hFault
  · cases hFault
    exact ⟨_, _, rfl⟩
  · cases hFault

end Grammar
end ProtoIdl
