import ProtoIdl.Json
import ProtoIdl.Proofs.RoundTrip.Word

/-!
# Rendered values

A rendered value can be told from what follows it: two values that render alike, each with
something after it that cannot be a part of a number, are the same value with the same after
it.  So the compact text of a value determines the value.

The first character tells the kind of a value.  A string ends at the first quote that no
backslash escapes, a number at the first character that is neither a digit nor a minus sign,
and lists end at their own brackets.
-/

namespace ProtoIdl
namespace Json

/-! ## Strings -/

/-- The character that a string starts with, its escape undone, and what follows it.  There
is none at the closing quote. -/
def readChar? : List Char → Option (Char × List Char)
  | [] => none
  | '"' :: _ => none
  | '\\' :: '"' :: rest => some ('"', rest)
  | '\\' :: '\\' :: rest => some ('\\', rest)
  | '\\' :: 'b' :: rest => some ('\x08', rest)
  | '\\' :: 't' :: rest => some ('\t', rest)
  | '\\' :: 'n' :: rest => some ('\n', rest)
  | '\\' :: 'f' :: rest => some ('\x0c', rest)
  | '\\' :: 'r' :: rest => some ('\r', rest)
  | '\\' :: 'u' :: '0' :: '0' :: high :: low :: rest =>
      match Numeral.digitValue? high, Numeral.digitValue? low with
      | some h, some l => some (Char.ofNat (16 * h + l), rest)
      | _, _ => none
  | c :: rest => some (c, rest)

theorem digitValue?_hexDigit (n : Nat) : Numeral.digitValue? (hexDigit n) = some (n % 16) := by
  have hDigits : ∀ d < 16, Numeral.digitValue? (Nat.digitChar d) = some d := by decide
  exact hDigits (n % 16) (Nat.mod_lt n (by decide))

/-- An escaped character is read back. -/
theorem readChar?_escape (c : Char) (rest : List Char) :
    readChar? (escape c ++ rest) = some (c, rest) := by
  unfold escape
  -- one case for each escape, and the plain characters last
  split
  · next h => rw [h]; rfl
  split
  · next h => rw [h]; rfl
  split
  · next h => rw [h]; rfl
  split
  · next h => rw [h]; rfl
  split
  · next h => rw [h]; rfl
  split
  · next h => rw [h]; rfl
  split
  · next h => rw [h]; rfl
  split
  · next hControl =>
      have hValue : 16 * (c.toNat / 16 % 16) + c.toNat % 16 = c.toNat := by omega
      simp only [List.cons_append, List.nil_append, readChar?, digitValue?_hexDigit, hValue,
        Char.ofNat_toNat]
  · next hQuote hBackslash _ _ _ _ _ _ =>
      simp only [List.cons_append, List.nil_append]
      unfold readChar?
      split <;> simp_all

/-- The characters of a string end at its closing quote. -/
theorem flatMap_escape_append_inj {first second rest after : List Char}
    (hSame : first.flatMap escape ++ '"' :: rest = second.flatMap escape ++ '"' :: after) :
    first = second ∧ rest = after := by
  induction first generalizing second with
  | nil =>
      cases second with
      | nil => simpa using hSame
      | cons d second =>
          have hRead := readChar?_escape d (second.flatMap escape ++ '"' :: after)
          rw [← List.append_assoc, ← List.flatMap_cons, ← hSame] at hRead
          cases hRead
  | cons c first ih =>
      have hRead := readChar?_escape c (first.flatMap escape ++ '"' :: rest)
      rw [← List.append_assoc, ← List.flatMap_cons, hSame] at hRead
      cases second with
      | nil => cases hRead
      | cons d second =>
          rw [List.flatMap_cons, List.append_assoc, readChar?_escape] at hRead
          obtain ⟨rfl, hRest⟩ : d = c ∧ second.flatMap escape ++ '"' :: after =
              first.flatMap escape ++ '"' :: rest := by
            simpa using hRead
          obtain ⟨rfl, rfl⟩ := ih hRest.symm
          exact ⟨rfl, rfl⟩

/-- A string can be told from what follows it. -/
theorem quote_append_inj {first second : String} {rest after : List Char}
    (hSame : quote first ++ rest = quote second ++ after) : first = second ∧ rest = after := by
  have hInner : first.toList.flatMap escape ++ '"' :: rest =
      second.toList.flatMap escape ++ '"' :: after := by
    simpa [quote] using hSame
  obtain ⟨hText, hRest⟩ := flatMap_escape_append_inj hInner
  exact ⟨String.toList_inj.mp hText, hRest⟩

/-! ## Numbers -/

/-- What follows a value in a rendered text: nothing, a comma, or the end of a list. -/
def Delimited (rest : List Char) : Prop :=
  ∀ c ∈ rest.head?, c = ',' ∨ c = ']' ∨ c = '\x7d'

/-- The characters of a number. -/
def isNumeric (c : Char) : Bool :=
  c.isDigit || c == '-'

theorem isNumeric_of_mem_repr {n : Int} {c : Char} (hMem : c ∈ n.repr.toList) :
    isNumeric c = true := by
  cases n with
  | ofNat n =>
      have hDigit : c.isDigit = true := Numeral.isDigit_of_mem_repr (n := n) hMem
      simp [isNumeric, hDigit]
  | negSucc n =>
      have hSign : (Int.negSucc n).repr.toList = '-' :: n.succ.repr.toList := by
        simp [Int.repr]
      rw [hSign] at hMem
      rcases List.mem_cons.mp hMem with rfl | hDigit
      · rfl
      · simp [isNumeric, Numeral.isDigit_of_mem_repr hDigit]

/-- A number ends where its digits do. -/
theorem takeWhile_repr_append (n : Int) {rest : List Char} (hRest : Delimited rest) :
    (n.repr.toList ++ rest).takeWhile isNumeric = n.repr.toList := by
  have hEnd : rest.takeWhile isNumeric = [] := by
    cases rest with
    | nil => rfl
    | cons c rest => rcases hRest c rfl with rfl | rfl | rfl <;> rfl
  rw [List.takeWhile_append_of_pos fun c hMem => isNumeric_of_mem_repr hMem, hEnd,
    List.append_nil]

/-- A number can be told from what follows it. -/
theorem repr_append_inj {first second : Int} {rest after : List Char} (hRest : Delimited rest)
    (hAfter : Delimited after)
    (hSame : first.repr.toList ++ rest = second.repr.toList ++ after) :
    first = second ∧ rest = after := by
  have hDigits : first.repr.toList = second.repr.toList := by
    rw [← takeWhile_repr_append first hRest, hSame, takeWhile_repr_append second hAfter]
  have hValue : some first = some second := by
    rw [← Numeral.value?_repr first, hDigits, Numeral.value?_repr]
  rw [hDigits] at hSame
  exact ⟨Option.some.inj hValue, List.append_cancel_left hSame⟩

/-! ## Kinds of values -/

/-- What the first character of a value tells about it. -/
inductive Kind where
  | null
  | bool (value : Bool)
  | int
  | text
  | array
  | object
  deriving DecidableEq

/-- The kind of a value. -/
def kind : Json → Kind
  | null => .null
  | bool value => .bool value
  | int _ => .int
  | text _ => .text
  | array _ => .array
  | object _ => .object

/-- The kind of the values that a character starts. -/
def kindOf? (c : Char) : Option Kind :=
  if isNumeric c then some .int
  else
    match c with
    | 'n' => some .null
    | 't' => some (.bool true)
    | 'f' => some (.bool false)
    | '"' => some .text
    | '[' => some .array
    | '\x7b' => some .object
    | _ => none

/-- The first character of a value tells its kind. -/
theorem exists_render_eq_cons (value : Json) :
    ∃ c rest, value.render = c :: rest ∧ kindOf? c = some value.kind := by
  cases value with
  | int value =>
      obtain ⟨c, rest, hRepr, -⟩ := Numeral.head?_repr value
      have hNumeric : isNumeric c = true := isNumeric_of_mem_repr (by rw [hRepr]; simp)
      exact ⟨c, rest, hRepr, if_pos hNumeric⟩
  | bool value => cases value <;> exact ⟨_, _, rfl, rfl⟩
  | null | text | array | object => exact ⟨_, _, rfl, rfl⟩

/-- Values that start alike are of one kind. -/
theorem kind_eq_of_append {first second : Json} {rest after : List Char}
    (hSame : first.render ++ rest = second.render ++ after) : first.kind = second.kind := by
  obtain ⟨c, _, hFirst, hKind⟩ := first.exists_render_eq_cons
  obtain ⟨d, _, hSecond, hOther⟩ := second.exists_render_eq_cons
  rw [hFirst, hSecond] at hSame
  obtain rfl := (List.cons_eq_cons.mp hSame).1
  exact Option.some.inj (hKind.symm.trans hOther)

/-- What starts like a value is no end of a list. -/
theorem render_append_ne_cons {value : Json} {rest after : List Char} {c : Char}
    (hOther : kindOf? c = none) : value.render ++ rest ≠ c :: after := by
  obtain ⟨d, _, hValue, hKind⟩ := value.exists_render_eq_cons
  intro hSame
  rw [hValue] at hSame
  obtain rfl := (List.cons_eq_cons.mp hSame).1
  rw [hOther] at hKind
  cases hKind

/-! ## Values -/

/-- What follows an item of an array: the end of the array, or a comma and the items that are
left. -/
def itemsAfter (rest : List Char) : List Json → List Char
  | [] => ']' :: rest
  | item :: items => ',' :: (renderItems (item :: items) ++ ']' :: rest)

/-- What follows a member of an object: its end, or a comma and the members that are left. -/
def membersAfter (rest : List Char) : List (String × Json) → List Char
  | [] => '\x7d' :: rest
  | member :: members => ',' :: (renderMembers (member :: members) ++ '\x7d' :: rest)

theorem renderItems_cons_append (item : Json) (items : List Json) (rest : List Char) :
    renderItems (item :: items) ++ ']' :: rest = item.render ++ itemsAfter rest items := by
  cases items with
  | nil => rfl
  | cons next items => simp [renderItems, itemsAfter]

theorem renderMembers_cons_append (name : String) (value : Json)
    (members : List (String × Json)) (rest : List Char) :
    renderMembers ((name, value) :: members) ++ '\x7d' :: rest =
      quote name ++ ':' :: (value.render ++ membersAfter rest members) := by
  cases members with
  | nil => simp [renderMembers, membersAfter]
  | cons next members => simp [renderMembers, membersAfter]

theorem delimited_itemsAfter (rest : List Char) (items : List Json) :
    Delimited (itemsAfter rest items) := by
  cases items <;> simp [Delimited, itemsAfter]

theorem delimited_membersAfter (rest : List Char) (members : List (String × Json)) :
    Delimited (membersAfter rest members) := by
  cases members <;> simp [Delimited, membersAfter]

/-- Arrays that render alike go on alike from any item before them. -/
theorem itemsAfter_eq_of_append {first second : List Json} {rest after : List Char}
    (hSame : renderItems first ++ ']' :: rest = renderItems second ++ ']' :: after) :
    itemsAfter rest first = itemsAfter after second := by
  cases first with
  | nil =>
      cases second with
      | nil => exact hSame
      | cons other others =>
          rw [renderItems_cons_append] at hSame
          exact absurd hSame.symm (render_append_ne_cons (by decide))
  | cons item items =>
      cases second with
      | nil =>
          rw [renderItems_cons_append] at hSame
          exact absurd hSame (render_append_ne_cons (by decide))
      | cons other others => exact congrArg (',' :: ·) hSame

/-- Objects that render alike go on alike from any member before them. -/
theorem membersAfter_eq_of_append {first second : List (String × Json)} {rest after : List Char}
    (hSame : renderMembers first ++ '\x7d' :: rest = renderMembers second ++ '\x7d' :: after) :
    membersAfter rest first = membersAfter after second := by
  cases first with
  | nil =>
      cases second with
      | nil => exact hSame
      | cons other others =>
          rw [renderMembers_cons_append] at hSame
          simp [renderMembers, quote] at hSame
  | cons member members =>
      cases second with
      | nil =>
          rw [renderMembers_cons_append] at hSame
          simp [renderMembers, quote] at hSame
      | cons other others => exact congrArg (',' :: ·) hSame

mutual

/-- A value can be told from what follows it. -/
theorem render_append_inj (first second : Json) {rest after : List Char}
    (hRest : Delimited rest) (hAfter : Delimited after)
    (hSame : first.render ++ rest = second.render ++ after) :
    first = second ∧ rest = after := by
  -- values of different kinds do not even start alike
  have hKind := kind_eq_of_append hSame
  cases first with
  | null | bool value =>
      cases second <;> cases hKind
      exact ⟨rfl, List.append_cancel_left hSame⟩
  | int value =>
      cases second <;> cases hKind
      next other =>
        obtain ⟨rfl, hEnd⟩ := repr_append_inj hRest hAfter hSame
        exact ⟨rfl, hEnd⟩
  | text value =>
      cases second <;> cases hKind
      next other =>
        obtain ⟨rfl, hEnd⟩ := quote_append_inj hSame
        exact ⟨rfl, hEnd⟩
  | array items =>
      cases second <;> cases hKind
      next others =>
        have hInner : renderItems items ++ ']' :: rest = renderItems others ++ ']' :: after := by
          simpa [render] using hSame
        obtain ⟨rfl, hEnd⟩ := itemsAfter_inj items others (itemsAfter_eq_of_append hInner)
        exact ⟨rfl, hEnd⟩
  | object members =>
      cases second <;> cases hKind
      next others =>
        have hInner : renderMembers members ++ '\x7d' :: rest =
            renderMembers others ++ '\x7d' :: after := by
          simpa [render] using hSame
        obtain ⟨rfl, hEnd⟩ := membersAfter_inj members others (membersAfter_eq_of_append hInner)
        exact ⟨rfl, hEnd⟩
termination_by structural first

/-- The items of an array can be told from what follows the array. -/
theorem itemsAfter_inj (first second : List Json) {rest after : List Char}
    (hSame : itemsAfter rest first = itemsAfter after second) :
    first = second ∧ rest = after := by
  cases first with
  | nil =>
      cases second with
      | nil => exact ⟨rfl, (List.cons_eq_cons.mp hSame).2⟩
      | cons other others => simp [itemsAfter] at hSame
  | cons item items =>
      cases second with
      | nil => simp [itemsAfter] at hSame
      | cons other others =>
          have hTail := (List.cons_eq_cons.mp hSame).2
          rw [renderItems_cons_append, renderItems_cons_append] at hTail
          obtain ⟨rfl, hLater⟩ := render_append_inj item other (delimited_itemsAfter rest items)
            (delimited_itemsAfter after others) hTail
          obtain ⟨rfl, hEnd⟩ := itemsAfter_inj items others hLater
          exact ⟨rfl, hEnd⟩
termination_by structural first

/-- The members of an object can be told from what follows the object. -/
theorem membersAfter_inj (first second : List (String × Json)) {rest after : List Char}
    (hSame : membersAfter rest first = membersAfter after second) :
    first = second ∧ rest = after :=
  match first, second with
  | [], [] => ⟨rfl, (List.cons_eq_cons.mp hSame).2⟩
  | [], other :: others => by simp [membersAfter] at hSame
  | member :: members, [] => by simp [membersAfter] at hSame
  | (name, value) :: members, (otherName, other) :: others => by
      have hTail := (List.cons_eq_cons.mp hSame).2
      rw [renderMembers_cons_append, renderMembers_cons_append] at hTail
      obtain ⟨rfl, hColon⟩ := quote_append_inj hTail
      obtain ⟨rfl, hLater⟩ := render_append_inj value other
        (delimited_membersAfter rest members) (delimited_membersAfter after others)
        (List.cons_eq_cons.mp hColon).2
      obtain ⟨rfl, hEnd⟩ := membersAfter_inj members others hLater
      exact ⟨rfl, hEnd⟩
termination_by structural first

end

/-- The compact text of a value determines it. -/
theorem compact_inj {first second : Json} : first.compact = second.compact ↔ first = second := by
  constructor
  · intro hSame
    have hRender : first.render ++ [] = second.render ++ [] := by
      rw [List.append_nil, List.append_nil]
      exact String.ofList_injective hSame
    exact (render_append_inj first second (by simp [Delimited]) (by simp [Delimited]) hRender).1
  · rintro rfl
    rfl

end Json
end ProtoIdl
