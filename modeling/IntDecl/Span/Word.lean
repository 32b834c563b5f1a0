import IntDecl.Span.Basic

/-
  This file joins spans in machine words.

  A span in words has an unsigned word of 64 bits for its
  offset and another for its length. Sums and differences are
  checked: where one of them is no word, there is no result.

  Key definitions include:
    * `Span.Fits`
    * `Word.add?`
    * `Word.sub?`
    * `WordSpan`
    * `WordSpan.join?`
    * `Span.toWords`

  Key theorems include:
    * `Span.Fits.toSpan_toWords`
    * `Span.Fits.join?_toWords`
-/

------------------------------------------------------------
-- Checked Words
------------------------------------------------------------

namespace IntDecl

namespace Word

/- The sum of two words, if it is a word. -/
def add? (m n : UInt64) : Option UInt64 :=
  if m.toNat + n.toNat < UInt64.size then
    some (m + n)
  else
    none

/- The difference of two words, if it is a word. -/
def sub? (m n : UInt64) : Option UInt64 :=
  if n ≤ m then some (m - n) else none

/- Words whose sum is a word are added to that sum. -/
theorem add?_ofNat
    {m n : Nat}
    (hSum : m + n < UInt64.size) :
    add? (.ofNat m) (.ofNat n) = some (.ofNat (m + n)) := by
  have hFirst : (UInt64.ofNat m).toNat = m :=
    UInt64.toNat_ofNat_of_lt' (by omega)
  have hSecond : (UInt64.ofNat n).toNat = n :=
    UInt64.toNat_ofNat_of_lt' (by omega)
  rw [add?, hFirst, hSecond, if_pos hSum, UInt64.ofNat_add]

/- A word that is no larger is subtracted from another. -/
theorem sub?_ofNat
    {m n : Nat}
    (hWord : m < UInt64.size)
    (hLe : n ≤ m) :
    sub? (.ofNat m) (.ofNat n) = some (.ofNat (m - n)) := by
  have hWords : UInt64.ofNat n ≤ UInt64.ofNat m :=
    (UInt64.ofNat_le_iff_le (by omega) hWord).mpr hLe
  rw [sub?, if_pos hWords, UInt64.ofNat_sub hLe]

/- The smaller of two words stands for the smaller number. -/
theorem min_ofNat
    {m n : Nat}
    (hFirst : m < UInt64.size)
    (hSecond : n < UInt64.size) :
    min (UInt64.ofNat m) (.ofNat n) = .ofNat (min m n) := by
  have hWords := UInt64.ofNat_le_iff_le hFirst hSecond
  by_cases hLe : m ≤ n
  · rw [Nat.min_eq_left hLe]
    exact if_pos (hWords.mpr hLe)
  · rw [Nat.min_eq_right (Nat.le_of_not_le hLe)]
    exact if_neg (mt hWords.mp hLe)

/- The larger of two words stands for the larger number. -/
theorem max_ofNat
    {m n : Nat}
    (hFirst : m < UInt64.size)
    (hSecond : n < UInt64.size) :
    max (UInt64.ofNat m) (.ofNat n) = .ofNat (max m n) := by
  have hWords := UInt64.ofNat_le_iff_le hFirst hSecond
  by_cases hLe : m ≤ n
  · rw [Nat.max_eq_right hLe]
    exact if_pos (hWords.mpr hLe)
  · rw [Nat.max_eq_left (Nat.le_of_not_le hLe)]
    exact if_neg (mt hWords.mp hLe)

end Word

end IntDecl

------------------------------------------------------------
-- Spans In Words
------------------------------------------------------------

namespace IntDecl

/- A range of bytes, given in words. -/
structure WordSpan where
  offset : UInt64
  length : UInt64
deriving DecidableEq, Repr

namespace WordSpan

/- The range of bytes that a span in words stands for. -/
def toSpan (s : WordSpan) : Span where
  offset := s.offset.toNat
  length := s.length.toNat

/- The position right after the last byte, if it is a word. -/
def stop? (s : WordSpan) : Option UInt64 :=
  Word.add? s.offset s.length

/-
  The span from the earlier of two offsets to the later of
  two ends, computed in words.
-/
def join? (s t : WordSpan) : Option WordSpan := do
  let first ← s.stop?
  let second ← t.stop?
  let start := min s.offset t.offset
  let length ← Word.sub? (max first second) start
  return { offset := start, length := length }

end WordSpan

namespace Span

/- The position right after the last byte is a word. -/
def Fits (s : Span) : Prop :=
  s.stop < UInt64.size

instance (s : Span) : Decidable s.Fits := by
  unfold Fits
  infer_instance

/- A span in words, as far as words go. -/
def toWords (s : Span) : WordSpan where
  offset := .ofNat s.offset
  length := .ofNat s.length

/- Nothing is lost in words of a span that fits them. -/
theorem Fits.toSpan_toWords
    {s : Span}
    (hFits : s.Fits) :
    s.toWords.toSpan = s := by
  have hStop : s.offset + s.length < UInt64.size := hFits
  rw [toWords, WordSpan.toSpan,
    UInt64.toNat_ofNat_of_lt' (by omega),
    UInt64.toNat_ofNat_of_lt' (by omega)]

/- The end of a span that fits is a word. -/
theorem Fits.stop?_toWords
    {s : Span}
    (hFits : s.Fits) :
    s.toWords.stop? = some (.ofNat s.stop) :=
  Word.add?_ofNat hFits

/- Spans that fit into words are joined to one that does. -/
theorem Fits.join
    {s t : Span}
    (hFirst : s.Fits)
    (hSecond : t.Fits) :
    (s.join t).Fits := by
  rw [Fits, stop_join]
  exact Nat.max_lt.mpr ⟨hFirst, hSecond⟩

/-
  Spans that fit into words are joined in words, since the
  earlier offset is not behind the later end.
-/
theorem Fits.join?_toWords
    {s t : Span}
    (hFirst : s.Fits)
    (hSecond : t.Fits) :
    s.toWords.join? t.toWords = some (s.join t).toWords := by
  have hEnd : max s.stop t.stop < UInt64.size :=
    Nat.max_lt.mpr ⟨hFirst, hSecond⟩
  have hOffset : s.offset ≤ s.stop := Nat.le_add_right _ _
  have hOther : t.offset ≤ t.stop := Nat.le_add_right _ _
  have hNotBehind :
      min s.offset t.offset ≤ max s.stop t.stop := by
    omega
  have hStart :
      min s.toWords.offset t.toWords.offset =
        .ofNat (min s.offset t.offset) :=
    Word.min_ofNat (Nat.lt_of_le_of_lt hOffset hFirst)
      (Nat.lt_of_le_of_lt hOther hSecond)
  have hLength := Word.sub?_ofNat hEnd hNotBehind
  rw [WordSpan.join?, hFirst.stop?_toWords,
    hSecond.stop?_toWords]
  simp only [Option.bind_eq_bind, Option.bind_some, hStart,
    Word.max_ofNat hFirst hSecond, hLength]
  rfl

end Span

end IntDecl
