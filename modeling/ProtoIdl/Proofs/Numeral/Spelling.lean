import Mathlib.Data.Nat.Digits.Lemmas
import Mathlib.Tactic.IntervalCases
import Mathlib.Tactic.Ring
import ProtoIdl.Text.Numeral

/-!
# How numbers are spelled

`Numeral.Denotes` says which literals stand for which integers: an optional sign, then decimal
digits, or `0x` or `0X` and hexadecimal digits, at least one in each case, with the value that
digits have by their places.  `Numeral.within?` finds just the integers of its interval that
the literal denotes, which is at most one.
-/

namespace ProtoIdl
namespace Numeral

/-! ## Digits -/

/-- The digits by their values, with small letters. -/
def smallDigits : List Char :=
  ['0', '1', '2', '3', '4', '5', '6', '7', '8', '9', 'a', 'b', 'c', 'd', 'e', 'f']

/-- The digits by their values, with capital letters. -/
def capitalDigits : List Char :=
  ['0', '1', '2', '3', '4', '5', '6', '7', '8', '9', 'A', 'B', 'C', 'D', 'E', 'F']

/-- A character is the digit of this value, of those that the radix has. -/
def HasDigitValue (radix : Nat) (c : Char) (value : Nat) : Prop :=
  value < radix ∧ (smallDigits[value]? = some c ∨ capitalDigits[value]? = some c)

/-- A character in a range is one of finitely many. -/
theorem exists_toNat_of_le {least greatest c : Char} (hLeast : least ≤ c)
    (hGreatest : c ≤ greatest) :
    ∃ n, least.toNat ≤ n ∧ n ≤ greatest.toNat ∧ c = Char.ofNat n :=
  ⟨c.toNat, hLeast, hGreatest, (Char.ofNat_toNat c).symm⟩

theorem hasDigitValue_of_digitValue? {c : Char} {value : Nat}
    (hValue : digitValue? c = some value) : HasDigitValue 16 c value := by
  unfold digitValue? at hValue
  split at hValue
  · next hRange =>
      obtain ⟨n, hLeast, hGreatest, rfl⟩ := exists_toNat_of_le hRange.1 hRange.2
      cases hValue
      change 48 ≤ n at hLeast
      change n ≤ 57 at hGreatest
      interval_cases n <;> exact ⟨by decide, .inl (by decide)⟩
  · split at hValue
    · next hRange =>
        obtain ⟨n, hLeast, hGreatest, rfl⟩ := exists_toNat_of_le hRange.1 hRange.2
        cases hValue
        change 97 ≤ n at hLeast
        change n ≤ 102 at hGreatest
        interval_cases n <;> exact ⟨by decide, .inl (by decide)⟩
    · split at hValue
      · next hRange =>
          obtain ⟨n, hLeast, hGreatest, rfl⟩ := exists_toNat_of_le hRange.1 hRange.2
          cases hValue
          change 65 ≤ n at hLeast
          change n ≤ 70 at hGreatest
          interval_cases n <;> exact ⟨by decide, .inr (by decide)⟩
      · cases hValue

theorem digitValue?_of_hasDigitValue {c : Char} {value : Nat} (hDigit : HasDigitValue 16 c value) :
    digitValue? c = some value := by
  obtain ⟨hLess, hSmall | hCapital⟩ := hDigit
  · interval_cases value <;> (cases hSmall; decide)
  · interval_cases value <;> (cases hCapital; decide)

/-- The model finds the value of a digit in any radix up to 16. -/
theorem hasDigitValue_iff {radix : Nat} (hRadix : radix ≤ 16) {c : Char} {value : Nat} :
    HasDigitValue radix c value ↔ digitValue? c = some value ∧ value < radix := by
  constructor
  · rintro ⟨hLess, hDigit⟩
    exact ⟨digitValue?_of_hasDigitValue ⟨by omega, hDigit⟩, hLess⟩
  · rintro ⟨hValue, hLess⟩
    exact ⟨hLess, (hasDigitValue_of_digitValue? hValue).2⟩

/-! ## Strings of digits -/

/-- Digits, the most significant first, and the number that they stand for by their places. -/
def Spells (radix : Nat) (digits : List Char) (n : Nat) : Prop :=
  digits ≠ [] ∧ ∃ values, List.Forall₂ (HasDigitValue radix) digits values ∧
    n = Nat.ofDigits radix values.reverse

/-- What further digits make of a number. -/
theorem extendBy?_eq_some_iff {radix : Nat} (hRadix : radix ≤ 16) {digits : List Char}
    {value n : Nat} :
    extendBy? radix value digits = some n ↔
      ∃ values, List.Forall₂ (HasDigitValue radix) digits values ∧
        n = value * radix ^ digits.length + Nat.ofDigits radix values.reverse := by
  induction digits generalizing value with
  | nil => simp [extendBy?, eq_comm]
  | cons c rest ih =>
      have hPlaces : ∀ digit : Nat, ∀ values : List Nat,
          List.Forall₂ (HasDigitValue radix) rest values →
            value * radix ^ (c :: rest).length + Nat.ofDigits radix (digit :: values).reverse =
              (value * radix + digit) * radix ^ rest.length +
                Nat.ofDigits radix values.reverse := by
        intro digit values hRest
        rw [List.reverse_cons, Nat.ofDigits_append, Nat.ofDigits_singleton, List.length_reverse,
          ← hRest.length_eq, List.length_cons]
        ring
      constructor
      · intro hRun
        rw [extendBy?] at hRun
        split at hRun
        · cases hRun
        · next digit hDigit =>
            split at hRun
            · next hLess =>
                obtain ⟨values, hRest, hValue⟩ := ih.mp hRun
                have hFirst := (hasDigitValue_iff hRadix).mpr ⟨hDigit, hLess⟩
                refine ⟨digit :: values, .cons hFirst hRest, ?_⟩
                rw [hPlaces digit values hRest, hValue]
            · cases hRun
      · rintro ⟨values, hDigits, hValue⟩
        cases hDigits with
        | @cons _ digit _ values hDigit hRest =>
            obtain ⟨hRead, hLess⟩ := (hasDigitValue_iff hRadix).mp hDigit
            rw [extendBy?, hRead]
            simp only [hLess, if_true]
            apply ih.mpr
            exact ⟨values, hRest, hValue.trans (hPlaces digit values hRest)⟩

theorem ofDigits?_eq_some_iff {radix : Nat} (hRadix : radix ≤ 16) {digits : List Char} {n : Nat} :
    ofDigits? radix digits = some n ↔ Spells radix digits n := by
  unfold Spells
  cases digits with
  | nil => simp [ofDigits?]
  | cons c rest =>
      rw [ofDigits?, extendBy?_eq_some_iff hRadix]
      simp

/-! ## Literals -/

/-- Digits in one of the two radixes, and the number that they stand for. -/
inductive Magnitude : List Char → Nat → Prop where
  | decimal {digits : List Char} {n : Nat} (hDigits : Spells 10 digits n) : Magnitude digits n
  | hexadecimal {mark : Char} {digits : List Char} {n : Nat} (hMark : mark = 'x' ∨ mark = 'X')
      (hDigits : Spells 16 digits n) : Magnitude ('0' :: mark :: digits) n

/-- A literal has at most one sign, and stands for this integer. -/
inductive Denotes : List Char → Int → Prop where
  | plain {rest : List Char} {n : Nat} (hRest : Magnitude rest n) : Denotes rest n
  | plus {rest : List Char} {n : Nat} (hRest : Magnitude rest n) : Denotes ('+' :: rest) n
  | minus {rest : List Char} {n : Nat} (hRest : Magnitude rest n) : Denotes ('-' :: rest) (-n)

/-- What spells a number consists of digits. -/
theorem Spells.exists_hasDigitValue {radix n : Nat} {c : Char} {digits : List Char}
    (hSpells : Spells radix digits n) (hMem : c ∈ digits) :
    ∃ value, HasDigitValue radix c value := by
  obtain ⟨-, values, hDigits, -⟩ := hSpells
  clear * - hDigits hMem
  induction hDigits with
  | nil => cases hMem
  | @cons _ value _ _ hDigit hRest ih =>
      rcases List.mem_cons.mp hMem with rfl | hRest
      · exact ⟨value, hDigit⟩
      · exact ih hRest

/-- The letter of the hexadecimal mark is not a decimal digit. -/
theorem not_spells_mark {mark : Char} {rest : List Char} {n : Nat}
    (hMark : mark = 'x' ∨ mark = 'X') : ¬Spells 10 ('0' :: mark :: rest) n := by
  intro hSpells
  obtain ⟨value, hDigit⟩ := hSpells.exists_hasDigitValue (by simp : mark ∈ '0' :: mark :: rest)
  have hValue := ((hasDigitValue_iff (by decide)).mp hDigit).1
  rcases hMark with rfl | rfl <;> cases hValue

theorem magnitude?_eq_some_iff {chars : List Char} {n : Nat} :
    magnitude? chars = some n ↔ Magnitude chars n := by
  fun_cases magnitude? chars with
  | case1 digits =>
      -- the small hexadecimal mark
      rw [ofDigits?_eq_some_iff (by decide)]
      constructor
      · exact .hexadecimal (.inl rfl)
      · intro hMagnitude
        cases hMagnitude with
        | decimal hDigits => exact absurd hDigits (not_spells_mark (.inl rfl))
        | hexadecimal hMark hDigits => exact hDigits
  | case2 digits =>
      -- the capital one
      rw [ofDigits?_eq_some_iff (by decide)]
      constructor
      · exact .hexadecimal (.inr rfl)
      · intro hMagnitude
        cases hMagnitude with
        | decimal hDigits => exact absurd hDigits (not_spells_mark (.inr rfl))
        | hexadecimal hMark hDigits => exact hDigits
  | case3 _ hSmall hCapital =>
      -- no mark, so the digits are decimal
      rw [ofDigits?_eq_some_iff (by decide)]
      constructor
      · exact .decimal
      · intro hMagnitude
        cases hMagnitude with
        | decimal hDigits => exact hDigits
        | hexadecimal hMark hDigits =>
            rcases hMark with rfl | rfl
            · exact absurd rfl (hSmall _)
            · exact absurd rfl (hCapital _)

/-- A number begins with a digit, and so with no sign. -/
theorem Magnitude.exists_hasDigitValue {c : Char} {rest : List Char} {n : Nat}
    (hMagnitude : Magnitude (c :: rest) n) : ∃ value, digitValue? c = some value := by
  cases hMagnitude with
  | decimal hDigits =>
      obtain ⟨value, hDigit⟩ := hDigits.exists_hasDigitValue List.mem_cons_self
      exact ⟨value, ((hasDigitValue_iff (by decide)).mp hDigit).1⟩
  | hexadecimal => exact ⟨0, by decide⟩

/-- A sign changes a magnitude that was found. -/
theorem map_cast_eq_some_iff {found : Option Nat} {change : Int → Int} {n : Int} :
    (found >>= fun m => pure (m : Int)).map change = some n ↔
      ∃ m, found = some m ∧ change m = n := by
  cases found <;> simp

theorem value?_eq_some_iff {chars : List Char} {n : Int} :
    value? chars = some n ↔ Denotes chars n := by
  fun_cases value? chars with
  | case1 rest =>
      -- a minus sign, which no digit is
      rw [map_cast_eq_some_iff]
      constructor
      · rintro ⟨m, hRest, rfl⟩
        exact .minus (magnitude?_eq_some_iff.mp hRest)
      · intro hDenotes
        cases hDenotes with
        | plain hRest =>
            obtain ⟨value, hValue⟩ := hRest.exists_hasDigitValue
            cases hValue
        | @minus _ m hRest => exact ⟨m, magnitude?_eq_some_iff.mpr hRest, rfl⟩
  | case2 rest =>
      -- a plus sign, which no digit is
      rw [map_cast_eq_some_iff]
      constructor
      · rintro ⟨m, hRest, rfl⟩
        exact .plus (magnitude?_eq_some_iff.mp hRest)
      · intro hDenotes
        cases hDenotes with
        | plain hRest =>
            obtain ⟨value, hValue⟩ := hRest.exists_hasDigitValue
            cases hValue
        | @plus _ m hRest => exact ⟨m, magnitude?_eq_some_iff.mpr hRest, rfl⟩
  | case3 _ hMinus hPlus =>
      -- no sign
      rw [map_cast_eq_some_iff]
      constructor
      · rintro ⟨m, hRest, rfl⟩
        exact .plain (magnitude?_eq_some_iff.mp hRest)
      · intro hDenotes
        cases hDenotes with
        | @plain _ m hRest => exact ⟨m, magnitude?_eq_some_iff.mpr hRest, rfl⟩
        | plus hRest => exact absurd rfl (hPlus _)
        | minus hRest => exact absurd rfl (hMinus _)

/-- A literal denotes an integer of the interval. -/
def DenotesIn (interval : Interval) (literal : String) (n : Int) : Prop :=
  Denotes literal.toList n ∧ interval.least ≤ n ∧ n ≤ interval.greatest

/-- The integers of the interval that a literal denotes are what it is read as. -/
theorem denotesIn_iff {interval : Interval} {literal : String} {n : Int} :
    DenotesIn interval literal n ↔ within? interval literal = some n := by
  rw [within?, Option.filter_eq_some_iff, value?_eq_some_iff, DenotesIn]
  simp [Interval.contains]

/-- A hexadecimal literal with a sign, and one that only has the mark. -/
example : within? enumNumbers "-0x8000000F" = none ∧ within? reservedNumbers "-0x8000000F" =
    some (-2147483663) ∧ within? reservedNumbers "0x" = none := by
  decide

end Numeral
end ProtoIdl
