import ProtoIdl.Grammar.Option
import ProtoIdl.Proofs.Depth.Gauge
import ProtoIdl.Proofs.Nesting
import ProtoIdl.Proofs.Parser.Yields

/-!
# The levels of options

Every braced option map goes one level down and is kept in the value that is answered, so
options are gauged by the nesting of their values.
-/

namespace ProtoIdl
namespace Grammar

open ProtoIdl.Parser

variable {cursor : Cursor}

/-! ## Option maps -/

theorem nesting_ofLiteral (literal : Token) : (OptionValue.ofLiteral literal).nesting = 0 := by
  unfold OptionValue.ofLiteral
  split
  · rfl
  · split <;> rfl

/-- A nested map adds its levels and its own braces, in either form. -/
theorem nesting_of_store {form : NestedForm} {options inner grown : OptionMap} {key : String}
    (hKeys : options.keys.Nodup) (hStore : form.store options key inner = .ok grown) :
    grown.nesting = max options.nesting (inner.nesting + 1) := by
  cases form with
  | value => exact OptionMap.nesting_of_bind hStore
  | block => exact OptionMap.nesting_of_pushBlock hKeys hStore

theorem nodup_keys_of_store {form : NestedForm} {options inner grown : OptionMap} {key : String}
    (hKeys : options.keys.Nodup) (hStore : form.store options key inner = .ok grown) :
    grown.keys.Nodup := by
  cases form with
  | value => exact OptionMap.nodup_keys_of_bind hKeys hStore
  | block => exact OptionMap.nodup_keys_of_pushBlock hKeys hStore

theorem levelless_entryKey (first : Token) : Levelless (entryKey first) := by
  unfold entryKey
  split
  · refine .bind (.word _ _) fun key => ?_
    refine .bind (.expect _ _) fun _ => ?_
    exact .pure key
  · split
    · exact .rejectLast _
    · exact .pure first

theorem levelless_entryValue (options : OptionMap) (key : String) :
    Levelless (entryValue options key) := by
  refine .bind .takeComments fun _ => ?_
  refine .bind (.next _ _) fun sign => ?_
  split
  · split
    · exact .fail _
    · refine .bind .takeComments fun _ => ?_
      refine .bind (.next _ _) fun value => ?_
      split
      · exact .pure _
      · split
        · exact .rejectLast _
        · exact .pure _
  · split
    · exact .pure _
    · exact .rejectLast _

theorem levelless_mapEntry (options : OptionMap) : Levelless (mapEntry options) := by
  refine .bind .takeComments fun _ => ?_
  refine .bind (.next _ _) fun first => ?_
  split
  · exact .pure _
  · split
    · exact .pure _
    · exact .bind (levelless_entryKey first) fun key => levelless_entryValue options key

/-- A map has the levels of its entries and one more for its braces. -/
theorem gauged_optionMap_of_entries (hEntries : ∀ entered, cursor.Onward entered →
      Gauged (entries ∅) 0 OptionMap.nesting entered) :
    Gauged optionMap 0 (fun inner => inner.nesting + 1) cursor :=
  .level hEntries

/-- The entries of an option map, nested maps included. -/
theorem gauged_entries {options : OptionMap} (hKeys : options.keys.Nodup) (cursor : Cursor) :
    Gauged (entries options) options.nesting OptionMap.nesting cursor := by
  induction options, cursor using entries_induction with
  | entry options cursor ih =>
      rw [entries_eq]
      refine .after_levelless (levelless_mapEntry options) fun entry between hEntry => ?_
      have hLater := ih entry between hEntry
      cases entry with
      | close => exact .pure rfl
      | separator => exact hLater options between (.refl between) hKeys
      | literal key value =>
          obtain ⟨literal, rfl⟩ := yields_mapEntry options _ _ hEntry
          have hBound : Gauged (ofExcept (options.bind key (.ofLiteral literal))) options.nesting
              OptionMap.nesting between := .ofExcept fun grown hBind => by
            rw [OptionMap.nesting_of_bind hBind, nesting_ofLiteral, Nat.max_zero]
          refine hBound.bind fun grown after hGrown => ?_
          obtain ⟨hBind, rfl⟩ := eq_of_run_ofExcept hGrown
          exact hLater grown after (.refl after) (OptionMap.nodup_keys_of_bind hKeys hBind)
      | nested form key =>
          have hInner : Gauged optionMap options.nesting
              (fun inner => max options.nesting (inner.nesting + 1)) between :=
            .raise (gauged_optionMap_of_entries fun entered hEntered =>
              hLater ∅ entered hEntered OptionMap.nodup_keys_empty) (Nat.zero_le _) fun _ _ => rfl
          refine .bind hInner fun inner afterInner hRun => ?_
          refine .bind (.ofExcept fun grown => nesting_of_store hKeys) fun grown after hGrown => ?_
          obtain ⟨hStore, rfl⟩ := eq_of_run_ofExcept hGrown
          exact hLater grown after (onward_of_ok hRun) (nodup_keys_of_store hKeys hStore)

theorem gauged_optionMap : Gauged optionMap 0 (fun inner => inner.nesting + 1) cursor :=
  gauged_optionMap_of_entries fun entered _ => gauged_entries OptionMap.nodup_keys_empty entered

/-! ## Bindings -/

theorem levelless_optionName (context : String) : Levelless (optionName context) := by
  refine .bind (.eat _) fun isParenthesized => ?_
  split
  · refine .bind (.word _ _) fun name => ?_
    refine .bind (.expect _ _) fun _ => ?_
    refine .bind (.takeIf _) fun suffix => ?_
    split <;> exact .pure _
  · exact .word _ _

theorem gauged_valueFrom (name context : String) (first : Token) :
    Gauged (valueFrom name context first) 0 OptionValue.nesting cursor := by
  have hAdmitted : ∀ (value : OptionValue) (later : Cursor),
      Gauged (if admitsValue name value then pure value else fail (.invalidOptimizeFor first))
        value.nesting OptionValue.nesting later := by
    intro value later
    split
    · exact .pure rfl
    · exact .fail _
  unfold valueFrom
  dsimp only
  split
  · have hMap : Gauged (OptionValue.map <$> optionMap) 0 OptionValue.nesting cursor := by
      rw [map_eq_pure_bind]
      exact .read gauged_optionMap (Nat.le_refl 0) fun inner _ => (Nat.zero_max _).symm
    exact hMap.bind fun value later _ => hAdmitted value later
  · split
    · exact .bind (.rejectLast _) fun value later _ => hAdmitted value later
    · have hLiteral := hAdmitted (.ofLiteral first) cursor
      rwa [nesting_ofLiteral] at hLiteral

/-- A binding has the levels of its value. -/
theorem gauged_optionBinding (context : String) :
    Gauged (optionBinding context) 0 (fun binding => binding.2.nesting) cursor := by
  refine .after_levelless (levelless_optionName _) fun name afterName _ => ?_
  refine .after_levelless (.expect _ _) fun _ afterEquals _ => ?_
  have hValue : Gauged (optionValue name context) 0 OptionValue.nesting afterEquals :=
    .after_levelless (.next _ _) fun first _ _ => gauged_valueFrom name context first
  refine hValue.bind fun value afterValue _ => ?_
  exact .pure rfl

/-- A binding that is read joins the bindings of its scope. -/
theorem gauged_bind (options : OptionMap) {binding : Parser (String × OptionValue)}
    (hBinding : Gauged binding 0 (fun binding => binding.2.nesting) cursor) :
    Gauged (binding >>= fun binding => ofExcept (options.bind binding.1 binding.2))
      options.nesting OptionMap.nesting cursor := by
  have hRaised : Gauged binding options.nesting
      (fun binding => max options.nesting binding.2.nesting) cursor :=
    hBinding.raise (Nat.zero_le _) fun _ _ => rfl
  exact hRaised.bind fun binding _ _ => .ofExcept fun grown => OptionMap.nesting_of_bind

theorem gauged_bindOptionRest (options : OptionMap) :
    Gauged (bindOptionRest options) options.nesting OptionMap.nesting cursor := by
  refine gauged_bind options ?_
  refine (gauged_optionBinding "option").bind fun binding afterBinding _ => ?_
  refine .after_levelless (.expect _ _) fun _ afterEnd _ => ?_
  exact .pure rfl

theorem gauged_fieldOption (options : OptionMap) :
    Gauged (fieldOption options) options.nesting OptionMap.nesting cursor := by
  refine .after_levelless .takeComments fun _ start _ => ?_
  have hBinding : Gauged (optionBinding "field options") 0 (fun binding => binding.2.nesting)
      start := gauged_optionBinding _
  have hCommented : ∀ (grown : OptionMap) (after : Cursor),
      Gauged (takeComments >>= fun _ => pure grown) grown.nesting OptionMap.nesting after :=
    fun grown _ => .after_levelless .takeComments fun comments _ _ => .pure rfl
  have hItem := (gauged_bind options hBinding).bind fun grown after _ => hCommented grown after
  simpa only [bind_assoc] using hItem

theorem gauged_optionalFieldOptions :
    Gauged optionalFieldOptions 0 OptionMap.nesting cursor := by
  refine .after_levelless .peek fun ahead start _ => ?_
  split
  · refine .after_levelless (.expect _ _) fun _ afterOpen _ => ?_
    exact .commaList (fun options _ => gauged_fieldOption options) _ _ ∅
  · exact .pure rfl

end Grammar
end ProtoIdl
