/-!
# Blank characters and trimming

A character is blank when it has the Unicode property `White_Space`.  Trimming
removes a class of characters from both ends of a text and leaves the inside
alone; `trimWith_eq_self` says when there is nothing to remove.
-/

namespace ProtoIdl
namespace Text

/-- The code points with the Unicode property `White_Space`, as inclusive
intervals in increasing order. -/
def blankIntervals : List (Nat × Nat) :=
  [(0x09, 0x0D), (0x20, 0x20), (0x85, 0x85), (0xA0, 0xA0), (0x1680, 0x1680),
    (0x2000, 0x200A), (0x2028, 0x2029), (0x202F, 0x202F), (0x205F, 0x205F),
    (0x3000, 0x3000)]

/-- Whether a character is blank. -/
def isBlank (c : Char) : Bool :=
  blankIntervals.any fun interval => interval.1 ≤ c.toNat && c.toNat ≤ interval.2

/-- Remove the characters of class `drop` from both ends. -/
def trimWith (drop : Char → Bool) (text : List Char) : List Char :=
  ((text.dropWhile drop).reverse.dropWhile drop).reverse

/-- Remove the blank characters from both ends. -/
def trim (text : List Char) : List Char :=
  trimWith isBlank text

/-- A text whose two ends stay is not changed. -/
theorem trimWith_eq_self {drop : Char → Bool} {text : List Char}
    (hHead : ∀ c, text.head? = some c → drop c = false)
    (hLast : ∀ c, text.getLast? = some c → drop c = false) :
    trimWith drop text = text := by
  have hFront : text.dropWhile drop = text := by
    cases text with
    | nil => rfl
    | cons c rest => simp [hHead c rfl]
  have hBack : text.reverse.dropWhile drop = text.reverse := by
    cases hRev : text.reverse with
    | nil => rfl
    | cons c rest =>
        have hEnd : text.getLast? = some c := by
          rw [← List.head?_reverse, hRev]
          rfl
        simp [hLast c hEnd]
  rw [trimWith, hFront, hBack, List.reverse_reverse]

/-- Two characters of the class at the ends of a text are removed with those next to them. -/
theorem trimWith_enclosed {drop : Char → Bool} {c : Char} (hDrop : drop c = true)
    (text : List Char) : trimWith drop (c :: (text ++ [c])) = trimWith drop text := by
  simp only [trimWith, List.dropWhile_cons, hDrop, if_true, List.dropWhile_append]
  split
  · next hEmpty =>
      rw [List.isEmpty_iff] at hEmpty
      simp [hEmpty]
  · simp [hDrop]

/-- What is left of a text after its front is dropped does not begin with that class. -/
theorem head?_dropWhile {drop : Char → Bool} {text : List Char} {c : Char}
    (hHead : (text.dropWhile drop).head? = some c) : drop c = false := by
  have hStop := List.head?_dropWhile_not drop text
  rw [hHead] at hStop
  simpa using hStop

/-- Only a text whose two ends stay is not changed. -/
theorem trimWith_eq_self_iff {drop : Char → Bool} {text : List Char} :
    trimWith drop text = text ↔
      (∀ c, text.head? = some c → drop c = false) ∧
        ∀ c, text.getLast? = some c → drop c = false := by
  refine ⟨fun hTrim => ⟨fun c hHead => ?_, fun c hLast => ?_⟩,
    fun ⟨hHead, hLast⟩ => trimWith_eq_self hHead hLast⟩
  · -- nothing is dropped at the front, since as many characters are left
    have hBack := (List.dropWhile_suffix (l := (text.dropWhile drop).reverse) drop).length_le
    have hLength := congrArg List.length hTrim
    simp only [trimWith, List.length_reverse] at hBack hLength
    have hFront : text.dropWhile drop = text :=
      (List.dropWhile_suffix drop).eq_of_length_le (by omega)
    rw [← hFront] at hHead
    exact head?_dropWhile hHead
  · rw [← hTrim, trimWith, List.getLast?_reverse] at hLast
    exact head?_dropWhile hLast

end Text
end ProtoIdl
