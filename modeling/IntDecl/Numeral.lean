/-
  This file reads and adds decimal numerals within signed
  64-bit bounds.

  Key definitions include:
    * `Numeral.IsDigits`
    * `Numeral.value`
    * `Numeral.InBounds`
    * `Numeral.read?`
    * `Numeral.add?`
    * `Numeral.write`

  Key theorems include:
    * `Numeral.value_toDigits`
    * `Numeral.read?_of_isDigits`
    * `Numeral.read?_write`
-/

------------------------------------------------------------
-- Unsigned Numerals
------------------------------------------------------------

namespace IntDecl

namespace Numeral

/- A nonempty run of the digits 0 to 9. -/
def IsDigits (cs : List Char) : Prop :=
  cs ≠ [] ∧ ∀ c ∈ cs, c.isDigit = true

instance (cs : List Char) : Decidable (IsDigits cs) :=
  decidable_of_iff
    (cs.isEmpty = false ∧ cs.all Char.isDigit = true)
    (by simp [IsDigits])

/- The number that a run of decimal digits stands for. -/
def value (cs : List Char) : Nat :=
  Nat.ofDigitChars 10 cs 0

/- The value of a text that is a run of digits. -/
def readDigits? (cs : List Char) : Option Nat :=
  if IsDigits cs then some (value cs) else none

end Numeral

end IntDecl

------------------------------------------------------------
-- Signed 64-Bit Numerals
------------------------------------------------------------

namespace IntDecl

namespace Numeral

/-
  The integers that fit in a signed word of 64 bits, from
  minus the 63rd power of two to one below that power.
-/
def InBounds (n : Int) : Prop :=
  -9223372036854775808 ≤ n ∧ n ≤ 9223372036854775807

instance (n : Int) : Decidable (InBounds n) := by
  unfold InBounds
  infer_instance

/- Digits with at most one sign in front, of any size. -/
def readSigned? : List Char → Option Int
| '+' :: cs => (readDigits? cs).map fun n => (n : Int)
| '-' :: cs => (readDigits? cs).map fun n => -(n : Int)
| cs => (readDigits? cs).map fun n => (n : Int)

/-
  The integer that a text stands for, if the text is digits
  with at most one sign in front and the integer is in
  bounds. Leading zeros are allowed.
-/
def read? (s : String) : Option Int :=
  (readSigned? s.toList).filter fun n => InBounds n

/- The sum of two integers, if it is in bounds. -/
def add? (m n : Int) : Option Int :=
  if InBounds (m + n) then some (m + n) else none

/-
  The digits of an integer without leading zeros, behind a
  minus sign if it is negative.
-/
def write : Int → String
| .ofNat n => String.ofList (Nat.toDigits 10 n)
| .negSucc n => String.ofList ('-' :: Nat.toDigits 10 (n + 1))

end Numeral

end IntDecl

------------------------------------------------------------
-- Reading What Was Written
------------------------------------------------------------

namespace IntDecl

namespace Numeral

/- The digits of a number are a run of digits. -/
theorem isDigits_toDigits
    (n : Nat) :
    IsDigits (Nat.toDigits 10 n) := by
  constructor
  · exact Nat.toDigits_ne_nil
  · intro c hMem
    exact Nat.isDigit_of_mem_toDigits (by decide)
      (by decide) hMem

/- The digits of a number stand for that number. -/
theorem value_toDigits
    (n : Nat) :
    value (Nat.toDigits 10 n) = n :=
  Nat.ofDigitChars_toDigits (by decide) (by decide)

/- The digits of a number are read as that number. -/
theorem readDigits?_toDigits
    (n : Nat) :
    readDigits? (Nat.toDigits 10 n) = some n := by
  rw [readDigits?, if_pos (isDigits_toDigits n),
    value_toDigits]

/- Digits are read without a sign. -/
theorem readSigned?_of_isDigits
    {cs : List Char}
    (hDigits : IsDigits cs) :
    readSigned? cs = some (value cs : Int) := by
  rcases hDigits with ⟨hNonempty, hAll⟩
  unfold readSigned?
  split
  · have hPlus := hAll '+' (by simp)
    exact absurd hPlus (by decide)
  · have hMinus := hAll '-' (by simp)
    exact absurd hMinus (by decide)
  · rw [readDigits?, if_pos ⟨hNonempty, hAll⟩]
    rfl

/- What is at most as large as a number in bounds is so. -/
theorem InBounds.of_le
    {m n : Nat}
    (hBounds : InBounds n)
    (hLe : m ≤ n) :
    InBounds m := by
  unfold InBounds at hBounds ⊢
  omega

/- Digits are read as their value, if it is in bounds. -/
theorem read?_of_isDigits
    {s : String}
    (hDigits : IsDigits s.toList) :
    read? s =
      if InBounds (value s.toList) then
        some (value s.toList : Int)
      else
        none := by
  rw [read?, readSigned?_of_isDigits hDigits,
    Option.filter_some]
  simp only [decide_eq_true_eq]

/- An integer that is written out is read back. -/
theorem readSigned?_write
    (n : Int) :
    readSigned? (write n).toList = some n := by
  cases n with
  | ofNat n =>
      rw [write, String.toList_ofList,
        readSigned?_of_isDigits (isDigits_toDigits n),
        value_toDigits]
      rfl
  | negSucc n =>
      rw [write, String.toList_ofList, readSigned?,
        readDigits?_toDigits]
      rfl

/- In bounds, an integer that is written out is read back. -/
theorem read?_write
    {n : Int}
    (hBounds : InBounds n) :
    read? (write n) = some n := by
  rw [read?, readSigned?_write, Option.filter_some,
    decide_eq_true hBounds, if_pos rfl]

end Numeral

end IntDecl
