import ProtoIdl.Proofs.Numeral.Spelling

/-!
# Numerals in 64 bits

The numbers of all slots can be read with words of 64 bits.  `Numeral.within64?` multiplies by
the radix and adds a digit, and gives up where one of the two does not fit; it changes the sign
without looking, and then compares with the interval of the slot.  It answers what
`Numeral.within?` does: a number that grows too large at some digit is too large in the end, and
no magnitude is so large that its sign could not be changed.
-/

namespace ProtoIdl
namespace Numeral

/-! ## Words -/

/-- The word that an operation came to, if it is what the operation should have come to. -/
def checked? (exact : Int) (word : Int64) : Option Int64 :=
  if word.toInt = exact then some word else none

/-- The word of a number without a sign, if it fits. -/
def fit? (n : Nat) : Option Int64 :=
  if n < 2 ^ 63 then some (Int64.ofNat n) else none

/-- Continue a number with one more digit. -/
def push64? (radix digit : Nat) (value : Int64) : Option Int64 := do
  let scaled ← checked? (value.toInt * radix) (value * Int64.ofNat radix)
  checked? (scaled.toInt + digit) (scaled + Int64.ofNat digit)

/-- Continue a number with further digits, the most significant first. -/
def extend64? (radix : Nat) : Int64 → List Char → Option Int64
  | value, [] => some value
  | value, c :: rest =>
      match digitValue? c with
      | none => none
      | some digit =>
          if digit < radix then
            (push64? radix digit value).bind fun next => extend64? radix next rest
          else none

/-- The number that one or more digits stand for. -/
def digits64? (radix : Nat) : List Char → Option Int64
  | [] => none
  | c :: rest => extend64? radix 0 (c :: rest)

/-- The value of a numeral without its sign. -/
def magnitude64? : List Char → Option Int64
  | '0' :: 'x' :: digits => digits64? 16 digits
  | '0' :: 'X' :: digits => digits64? 16 digits
  | digits => digits64? 10 digits

/-- The value of a numeral with at most one sign in front. -/
def value64? : List Char → Option Int64
  | '-' :: rest => (magnitude64? rest).map fun word => -word
  | '+' :: rest => magnitude64? rest
  | rest => magnitude64? rest

/-- The value of a numeral that lies in `interval`. -/
def within64? (interval : Interval) (literal : String) : Option Int :=
  ((value64? literal.toList).map Int64.toInt).filter interval.contains

/-! ## One digit -/

/-- A wrapped number is kept just where it fits. -/
theorem checked?_eq_fit? {n : Nat} {word : Int64} (hWord : word.toInt = (n : Int).bmod (2 ^ 64)) :
    checked? n word = fit? n := by
  unfold checked? fit?
  by_cases hFits : n < 2 ^ 63
  · have hExact : word.toInt = n := by
      rw [hWord]
      apply Int.bmod_eq_of_le <;> omega
    have hSame : word = Int64.ofNat n := by
      rw [← Int64.toInt_inj, hExact, Int64.toInt_ofNat_of_lt hFits]
    rw [if_pos hExact, if_pos hFits, hSame]
  · have hWrapped : word.toInt ≠ n := by
      have hLess := word.toInt_lt
      omega
    rw [if_neg hWrapped, if_neg hFits]

/-- One more digit is pushed if the number with it fits. -/
theorem push64?_ofNat {radix digit value : Nat} (hRadix : radix ≤ 16) (hPositive : 0 < radix)
    (hDigit : digit < radix) (hValue : value < 2 ^ 63) :
    push64? radix digit (Int64.ofNat value) = fit? (value * radix + digit) := by
  have hValueWord : (Int64.ofNat value).toInt = value := Int64.toInt_ofNat_of_lt hValue
  have hScale : checked? ((Int64.ofNat value).toInt * radix)
      (Int64.ofNat value * Int64.ofNat radix) = fit? (value * radix) := by
    have hRadixWord : (Int64.ofNat radix).toInt = radix := Int64.toInt_ofNat_of_lt (by omega)
    rw [hValueWord, ← Nat.cast_mul]
    apply checked?_eq_fit?
    rw [Int64.toInt_mul, hValueWord, hRadixWord, Nat.cast_mul]
  have hScaled : value ≤ value * radix := Nat.le_mul_of_pos_right value hPositive
  rw [push64?, hScale]
  by_cases hFits : value * radix < 2 ^ 63
  · have hDigitWord : (Int64.ofNat digit).toInt = digit := Int64.toInt_ofNat_of_lt (by omega)
    have hProductWord : (Int64.ofNat (value * radix)).toInt = (value * radix : Nat) :=
      Int64.toInt_ofNat_of_lt hFits
    have hAdd : checked? ((Int64.ofNat (value * radix)).toInt + digit)
        (Int64.ofNat (value * radix) + Int64.ofNat digit) = fit? (value * radix + digit) := by
      rw [hProductWord, ← Nat.cast_add]
      apply checked?_eq_fit?
      rw [Int64.toInt_add, hProductWord, hDigitWord, Nat.cast_add]
    rw [fit?, if_pos hFits]
    exact hAdd
  · -- what does not fit before the digit does not fit with it
    have hBeyond : ¬value * radix + digit < 2 ^ 63 := by omega
    rw [fit?, if_neg hFits, fit?, if_neg hBeyond]
    rfl

/-! ## All digits -/

/-- Further digits do not make a number smaller. -/
theorem le_of_extendBy? {radix value n : Nat} {digits : List Char} (hRadix : radix ≤ 16)
    (hPositive : 0 < radix) (hRun : extendBy? radix value digits = some n) : value ≤ n := by
  obtain ⟨values, -, rfl⟩ := (extendBy?_eq_some_iff hRadix).mp hRun
  have hScaled : value ≤ value * radix ^ digits.length :=
    Nat.le_mul_of_pos_right value (Nat.pow_pos hPositive)
  omega

theorem extend64?_eq {radix : Nat} (hRadix : radix ≤ 16) (hPositive : 0 < radix)
    (digits : List Char) {value : Nat} (hValue : value < 2 ^ 63) :
    extend64? radix (Int64.ofNat value) digits = (extendBy? radix value digits).bind fit? := by
  induction digits generalizing value with
  | nil => rw [extend64?, extendBy?, Option.bind_some, fit?, if_pos hValue]
  | cons c rest ih =>
      rw [extend64?, extendBy?]
      cases digitValue? c with
      | none => rfl
      | some digit =>
          by_cases hDigit : digit < radix
          · simp only [hDigit, if_true]
            rw [push64?_ofNat hRadix hPositive hDigit hValue, fit?]
            by_cases hFits : value * radix + digit < 2 ^ 63
            · rw [if_pos hFits, Option.bind_some]
              exact ih hFits
            · -- the digits that follow only make the number larger
              rw [if_neg hFits, Option.bind_none]
              cases hRun : extendBy? radix (value * radix + digit) rest with
              | none => rfl
              | some n =>
                  have hLess := le_of_extendBy? hRadix hPositive hRun
                  have hBeyond : ¬n < 2 ^ 63 := by omega
                  rw [Option.bind_some, fit?, if_neg hBeyond]
          · simp only [hDigit, if_false]
            rfl

theorem digits64?_eq {radix : Nat} (hRadix : radix ≤ 16) (hPositive : 0 < radix)
    (digits : List Char) : digits64? radix digits = (ofDigits? radix digits).bind fit? := by
  cases digits with
  | nil => rfl
  | cons c rest => exact extend64?_eq hRadix hPositive (c :: rest) (by decide : 0 < 2 ^ 63)

theorem magnitude64?_eq (chars : List Char) :
    magnitude64? chars = (magnitude? chars).bind fit? := by
  fun_cases magnitude? chars with
  | case1 digits => exact digits64?_eq (by decide) (by decide) digits
  | case2 digits => exact digits64?_eq (by decide) (by decide) digits
  | case3 _ hSmall hCapital =>
      -- no hexadecimal mark
      rw [magnitude64?]
      · exact digits64?_eq (by decide) (by decide) _
      · exact hSmall
      · exact hCapital

/-! ## Signs and intervals -/

/-- A magnitude that was read is no less than zero, and so its sign can be changed. -/
theorem toInt_neg_of_magnitude64? {chars : List Char} {word : Int64}
    (hRun : magnitude64? chars = some word) :
    0 ≤ word.toInt ∧ (-word).toInt = -word.toInt := by
  rw [magnitude64?_eq, Option.bind_eq_some_iff] at hRun
  obtain ⟨n, -, hFit⟩ := hRun
  unfold fit? at hFit
  split at hFit
  · next hFits =>
      cases hFit
      rw [Int64.toInt_neg, Int64.toInt_ofNat_of_lt hFits]
      constructor
      · omega
      · apply Int.bmod_eq_of_le <;> omega
  · cases hFit

/-- A number fits just if it and its opposite lie in the widest interval. -/
theorem contains_reservedNumbers_iff {n : Nat} {value : Int} (hValue : value = n ∨ value = -n) :
    reservedNumbers.contains value = true ↔ n < 2 ^ 63 := by
  rw [Interval.contains, Bool.and_eq_true, decide_eq_true_eq, decide_eq_true_eq]
  dsimp only [reservedNumbers]
  omega

/-- A sign that keeps magnitudes or changes each into its opposite goes through the words. -/
theorem toInt_signed (chars : List Char) (change : Int → Int) (word : Int64 → Int64)
    (hChange : ∀ n, change n = n ∨ change n = -n)
    (hWord : ∀ found, magnitude64? chars = some found →
      (word found).toInt = change found.toInt) :
    ((magnitude64? chars).map word).map Int64.toInt =
      ((magnitude? chars >>= fun n => pure (n : Int)).map change).filter
        reservedNumbers.contains := by
  rw [magnitude64?_eq] at hWord ⊢
  cases hRun : magnitude? chars with
  | none => rfl
  | some n =>
      rw [hRun, Option.bind_some] at hWord
      rw [Option.bind_some]
      have hContains := contains_reservedNumbers_iff (hChange n)
      have hOne : ((some n >>= fun m => pure (m : Int)).map change) = some (change n) := rfl
      rw [hOne]
      by_cases hFits : n < 2 ^ 63
      · have hFit : fit? n = some (Int64.ofNat n) := if_pos hFits
        have hExact := hWord _ hFit
        rw [Int64.toInt_ofNat_of_lt hFits] at hExact
        rw [hFit, Option.map_some, Option.map_some, hExact,
          Option.filter_some_pos (hContains.mpr hFits)]
      · have hFit : fit? n = none := if_neg hFits
        have hOutside : reservedNumbers.contains (change n) = false := by
          rwa [← Bool.not_eq_true, hContains]
        rw [hFit, Option.map_none, Option.map_none, Option.filter_some_neg hOutside]

theorem toInt_value64? (chars : List Char) :
    (value64? chars).map Int64.toInt = (value? chars).filter reservedNumbers.contains := by
  have hKeep : ∀ rest, (magnitude64? rest).map Int64.toInt =
      ((magnitude? rest >>= fun n => pure (n : Int)).map fun n => n).filter
        reservedNumbers.contains := by
    intro rest
    have hSigned := toInt_signed rest (fun n => n) (fun found => found) (fun n => .inl rfl)
      fun found _ => rfl
    simpa using hSigned
  fun_cases value? chars with
  | case1 rest =>
      -- a minus sign
      exact toInt_signed rest (fun n => -n) (fun found => -found) (fun n => .inr rfl)
        fun found hFound => (toInt_neg_of_magnitude64? hFound).2
  | case2 rest => exact hKeep rest
  | case3 _ hMinus hPlus =>
      -- no sign
      rw [value64?]
      · exact hKeep chars
      · exact hMinus
      · exact hPlus

/-- Words of 64 bits are enough for every interval inside the widest. -/
theorem within64?_eq {interval : Interval} (hLeast : reservedNumbers.least ≤ interval.least)
    (hGreatest : interval.greatest ≤ reservedNumbers.greatest) (literal : String) :
    within64? interval literal = within? interval literal := by
  rw [within64?, within?, toInt_value64?, Option.filter_filter]
  congr 1
  funext n
  simp only [Interval.contains]
  rw [Bool.eq_iff_iff]
  simp
  omega

end Numeral
end ProtoIdl
