import ProtoIdl.Grammar.Field
import ProtoIdl.Proofs.RoundTrip.Option

/-!
# Reading back fields

A written field starts with a keyword: its rule, or the one of map types.  The tokens up to
its name are read to what stands before the name, and the rest is the same for every field.
The fields of a group of alternatives are read back inside of one `oneof`.
-/

namespace ProtoIdl

/-! ## Words before the name -/

namespace Field

/-- The keyword that a written field starts with. -/
def leadKeyword (field : Field) : Keyword :=
  match field.type with
  | .map _ _ => .map
  | _ =>
      if field.required then .required
      else if field.repeated then .repeated
      else .optional

/-- The tokens between the first keyword and the name. -/
def leadTokens (field : Field) : List Token :=
  match field.type with
  | .map key value => ["<", key, ",", value, ">"]
  | .scalar name => [name]
  | .named name => [name]

/-- The tokens after the name. -/
def tailTokens (field : Field) : List Token :=
  "=" :: (field.tag : Int).repr :: (field.options.fieldList ++ [";"])

/-- A field is written with its comments, a keyword, its type, its name and its end. -/
theorem tokens_eq (field : Field) :
    field.tokens = commentTokens field.comments ++
      (field.leadKeyword.text :: (field.leadTokens ++ (field.name :: field.tailTokens))) := by
  rcases field with ⟨name, type, tag, required, repeated, oneof, options, comments⟩
  cases type with
  | map key value => rfl
  | scalar type => cases required <;> cases repeated <;> rfl
  | named type => cases required <;> cases repeated <;> rfl

/-- The first keyword is a rule or the one of map types. -/
theorem leadKeyword_mem (field : Field) :
    field.leadKeyword ∈ [Keyword.map, .required, .repeated, .optional] := by
  unfold leadKeyword
  split
  · decide
  · split
    · decide
    · split <;> decide

/-- A field of a group has no rule. -/
theorem leadKeyword_of_group {field : Field} (hField : field.Printable) {group : String}
    (hGroup : field.oneof = some group) : field.leadKeyword = .optional := by
  obtain ⟨_, hRequired, hRepeated⟩ := hField.group group hGroup
  unfold leadKeyword
  split
  · next key value hType =>
      have hNone := (hField.map (by simp [mapType?, hType])).2.2
      rw [hGroup] at hNone
      cases hNone
  · simp [hRequired, hRepeated]

theorem runTokens_of_no_group {first : Field} {run : List Field} (hGroup : first.oneof = none) :
    runTokens (first :: run) = (first :: run).flatMap tokens := by
  rw [runTokens, hGroup]

theorem runTokens_of_group {first : Field} {run : List Field} {group : String}
    (hGroup : first.oneof = some group) :
    runTokens (first :: run) =
      Keyword.oneof.text :: group :: braced ((first :: run).flatMap tokens) := by
  rw [runTokens, hGroup]

end Field

namespace Grammar

open ProtoIdl.Parser

variable {levels : Nat} {rest later : List Token}

/-! ## Types -/

/-- The built-in type names can stand as words. -/
theorem isWord_of_scalar {name : String} (hName : name ∈ FieldType.scalarNames) :
    IsWord name := by
  have hAll : ∀ name ∈ FieldType.scalarNames, IsWord name := by decide
  exact hAll name hName

/-- The type of a name that is built in. -/
theorem ofName_of_scalar {name : String} (hName : name ∈ FieldType.scalarNames) :
    FieldType.ofName name = .scalar name := by
  rw [FieldType.ofName, if_pos (List.contains_iff_mem.mpr hName)]

/-- The type of any other name. -/
theorem ofName_of_named {name : String} (hName : name ∉ FieldType.scalarNames) :
    FieldType.ofName name = .named name := by
  rw [FieldType.ofName, if_neg]
  rwa [List.contains_iff_mem]

theorem reads_mapTypeRest {key value : String} (hKey : IsWord key) (hValue : IsWord value) :
    mapTypeRest.Reads levels ("<" :: key :: "," :: value :: ">" :: rest) (.map key value)
      rest := by
  refine .bind (reads_expect "<" _) ?_
  refine .bind (reads_word hKey _ _) ?_
  refine .bind (reads_expect "," _) ?_
  refine .bind (reads_word hValue _ _) ?_
  refine .bind (reads_expect ">" _) ?_
  exact .pure _

/-! ## Fields -/

theorem reads_fieldWord {name : Token} (hName : IsWord name) (slot : FieldSlot) :
    (fieldWord slot).Reads levels (name :: rest) name rest := by
  have hHead : (name :: rest).head? ≠ some ";" := by
    simpa using hName.ne (by decide)
  refine .bind reads_peek ?_
  rw [if_neg hHead]
  exact reads_word hName _ _

/-- After its rule a field goes on with its type. -/
theorem reads_ruledHead {name : Token} (hName : IsWord name) (comments : List String)
    (required repeated : Bool) :
    (ruledHead comments required repeated).Reads levels (name :: rest)
      ⟨.ofName name, required, repeated, comments⟩ rest := by
  refine .bind (reads_no_comments hName.not_comment) (.bind (reads_fieldWord hName _) ?_)
  rw [List.append_nil]
  exact .pure _

/-- A rule and a type name are what stands before the name of a field. -/
theorem reads_fieldHead_ruled {name : Token} {type : FieldType} (hName : IsWord name)
    (hType : FieldType.ofName name = type) (comments : List String)
    {required repeated : Bool} (hRule : ¬(required = true ∧ repeated = true)) :
    (fieldHead comments (Keyword.text (if required then .required
      else if repeated then .repeated else .optional))).Reads levels (name :: rest)
      ⟨type, required, repeated, comments⟩ rest := by
  rw [fieldHead, Keyword.ofToken?_text, ← hType]
  cases required with
  | true =>
      cases repeated with
      | true => exact absurd ⟨rfl, rfl⟩ hRule
      | false => exact reads_ruledHead hName comments true false
  | false =>
      cases repeated with
      | true => exact reads_ruledHead hName comments false true
      | false => exact reads_ruledHead hName comments false false

/-- The words before the name of a field are read back. -/
theorem reads_fieldHead {field : Field} (hField : field.Printable) :
    (fieldHead field.comments field.leadKeyword.text).Reads levels (field.leadTokens ++ rest)
      ⟨field.type, field.required, field.repeated, field.comments⟩ rest := by
  obtain ⟨-, hType, -, hRule, hMap, -, -, -⟩ := hField
  rcases field with ⟨name, type, tag, required, repeated, oneof, options, comments⟩
  cases type with
  | map key value =>
      obtain ⟨rfl, rfl, -⟩ := hMap rfl
      exact .bind (reads_mapTypeRest hType.1 hType.2) (.pure _)
  | scalar type =>
      exact reads_fieldHead_ruled (isWord_of_scalar hType) (ofName_of_scalar hType) comments hRule
  | named type =>
      exact reads_fieldHead_ruled hType.1 (ofName_of_named hType.2) comments hRule

/-- After its first keyword a field is read back, apart from its group. -/
theorem reads_fieldRest {field : Field} (hField : field.Printable)
    (hNesting : field.options.nesting ≤ levels) :
    (fieldRest field.comments field.leadKeyword.text).Reads levels
      (field.leadTokens ++ (field.name :: field.tailTokens) ++ rest)
      { field with oneof := none } rest := by
  have hTag : Numeral.within? Numeral.fieldNumbers (field.tag : Int).repr =
      some (field.tag : Int) := by
    have hLt := hField.tag
    exact Numeral.within?_repr (by simp [Numeral.fieldNumbers])
      (by simp only [Numeral.fieldNumbers]; omega)
  have hTokens : field.leadTokens ++ (field.name :: field.tailTokens) ++ rest =
      field.leadTokens ++ (field.name :: "=" :: (field.tag : Int).repr ::
        (field.options.fieldList ++ ";" :: rest)) := by
    simp [Field.tailTokens]
  rw [hTokens]
  exact .bind (reads_fieldHead hField) <| .bind (reads_fieldWord hField.name _) <|
    reads_numbered hTag hField.options hNesting _ _ _ _

theorem noSemicolonFirst_field (field : Field) : NoSemicolonFirst field.tokens := by
  have hKeyword : ∀ keyword : Keyword, keyword.text ≠ ";" := by
    intro keyword
    cases keyword <;> decide
  rw [field.tokens_eq]
  exact (noSemicolonFirst_commentTokens _).append (noSemicolonFirst_cons (hKeyword _))

/-! ## Groups -/

/-- A field of a group is added to the group. -/
theorem reads_oneofMember {field : Field} (hField : field.Printable)
    (hNesting : field.options.nesting ≤ levels) {group : String}
    (hGroup : field.oneof = some group) (fields : List Field) :
    (oneofMember group fields (field.comments, field.leadKeyword.text)).Reads levels
      (field.leadTokens ++ (field.name :: field.tailTokens) ++ rest) (fields ++ [field])
      rest := by
  have hRest : (fieldRest field.comments field.leadKeyword.text).Reads levels
      (field.leadTokens ++ (field.name :: field.tailTokens) ++ rest)
      { field with oneof := none } rest := reads_fieldRest hField hNesting
  have hSame : { field with oneof := some group } = field := by
    rw [← hGroup]
  rw [Field.leadKeyword_of_group hField hGroup] at hRest ⊢
  refine .bind hRest ?_
  show (pure (fields ++ [{ field with oneof := some group }]) : Parser _).Reads _ _ _ _
  rw [hSame]
  exact .pure _

/-- After its keyword a `oneof` adds its fields. -/
theorem reads_oneofRest {group : String} (hName : IsWord group) {run : List Field}
    (hRun : ∀ field ∈ run, field.Printable ∧ field.options.nesting ≤ levels ∧
      field.oneof = some group) (fields : List Field) :
    (oneofRest fields).Reads levels (group :: (braced (run.flatMap Field.tokens) ++ rest))
      (fields ++ run) rest := by
  have hTokens : braced (run.flatMap Field.tokens) ++ rest =
      Token.openBrace :: (run.flatMap Field.tokens ++ Token.closeBrace :: rest) := by
    simp [braced]
  have hLoop : (loop (memberHead "oneof") (oneofMember group) (fields ++ [])).Reads levels
      (run.flatMap Field.tokens ++ Token.closeBrace :: rest) (fields ++ run) rest := by
    refine reads_flatMap
      (fun state ahead => (loop (memberHead "oneof") (oneofMember group) state).Reads levels
        ahead (fields ++ run) rest)
      (fun done => fields ++ done) ?_ (fun field _ => noSemicolonFirst_field field)
      (noSemicolonFirst_cons (by decide)) (reads_loop_done reads_memberHead_done)
    intro done field todo hSplit after _ hAfter
    obtain ⟨hField, hNesting, hGroup⟩ := hRun field (List.mem_iff_append.mpr ⟨done, todo, hSplit⟩)
    rw [field.tokens_eq, List.append_assoc, List.cons_append]
    refine reads_loop_item (reads_memberHead hField.comments ?_ ?_)
      (reads_oneofMember hField hNesting hGroup _) (by rwa [List.append_assoc])
    · rw [Field.leadKeyword_of_group hField hGroup]
      decide
    · rw [Field.leadKeyword_of_group hField hGroup]
      decide
  rw [List.append_nil] at hLoop
  rw [hTokens]
  exact .bind (reads_word hName _ _) (.bind (reads_expect _ _) hLoop)

/-! ## Field tokens in blocks -/

theorem whole_field {field : Field} (hField : field.Printable) : Cursor.Whole field.tokens := by
  have hTail : Cursor.Whole field.tailTokens :=
    whole_mark <| whole_numeral _ <|
      (whole_fieldList hField.options).append (whole_mark .nil)
  have hLead : Cursor.Whole field.leadTokens := by
    have hType := hField.type
    unfold Field.leadTokens
    split
    · next key value hMap =>
        rw [hMap] at hType
        exact whole_mark <| whole_word hType.1 <| whole_mark <| whole_word hType.2 <|
          whole_mark .nil
    · next name hScalar =>
        rw [hScalar] at hType
        exact whole_word (isWord_of_scalar hType) .nil
    · next name hNamed =>
        rw [hNamed] at hType
        exact whole_word hType.1 .nil
  have hKeyword : field.leadKeyword.text ≠ Token.openBrace ∧
      field.leadKeyword.text ≠ Token.closeBrace := by
    cases field.leadKeyword <;> decide
  rw [field.tokens_eq]
  exact (whole_commentTokens _).append <|
    whole_mark (hLead.append (whole_word hField.name hTail)) hKeyword

/-- The fields of a run all belong to the group of the first. -/
theorem oneof_eq_of_mem_run {fields run : List Field} {first : Field}
    (hRun : first :: run ∈ fields.splitBy Field.sameGroup) :
    ∀ field ∈ first :: run, field.oneof = first.oneof := by
  have hChain := List.isChain_of_mem_splitBy hRun
  clear hRun
  induction run generalizing first with
  | nil => simp
  | cons second run ih =>
      obtain ⟨hSame, hRest⟩ := List.isChain_cons_cons.mp hChain
      have hSecond : first.oneof = second.oneof := by
        simpa [Field.sameGroup] using hSame
      intro field hMem
      rcases List.mem_cons.mp hMem with rfl | hMem
      · rfl
      · rw [ih hRest field hMem, hSecond]

end Grammar
end ProtoIdl
