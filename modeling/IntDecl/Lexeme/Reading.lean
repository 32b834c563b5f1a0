import IntDecl.Lexeme.Basic

/-
  This file reads one lexeme off the front of a text.

  A word is a letter or underscore with the letters, digits
  and underscores that follow; it is the keyword only if it
  is `int` as a whole. A number is a longest run of digits.
  Letters and digits are those of ASCII.

  Key definitions include:
    * `Lexeme.isWordStart`
    * `Lexeme.isWordPart`
    * `Lexeme.signKind?`
    * `Lexeme.startsToken`
    * `Lexeme.read?`

  Key theorems include:
    * `Lexeme.text_append_of_read?`
    * `Lexeme.isSome_read?_iff`
    * `Lexeme.length_lt_of_read?`
    * `Lexeme.kind_ne_endOfInput_of_read?`
-/

------------------------------------------------------------
-- Character Classes
------------------------------------------------------------

namespace IntDecl

namespace Lexeme

/- The characters that can begin a word. -/
def isWordStart (c : Char) : Bool :=
  c.isAlpha || c == '_'

/- The characters that can continue a word. -/
def isWordPart (c : Char) : Bool :=
  c.isAlphanum || c == '_'

/- The kind of a token that consists of one sign. -/
def signKind? : Char → Option TokenKind
| '=' => some .assign
| '+' => some .plus
| '*' => some .multiply
| '(' => some .lparen
| ')' => some .rparen
| ';' => some .semicolon
| _ => none

/- The characters with which a token can begin. -/
def startsToken (c : Char) : Bool :=
  isWordStart c || c.isDigit || (signKind? c).isSome

end Lexeme

end IntDecl

------------------------------------------------------------
-- Reading
------------------------------------------------------------

namespace IntDecl

namespace Lexeme

/- A whole word, told apart from the keyword. -/
def ofWord (word : List Char) : Lexeme where
  kind := if word = ['i', 'n', 't'] then .intKeyword
    else .identifier
  text := String.ofList word

/- A whole number. -/
def ofDigits (digits : List Char) : Lexeme where
  kind := .number
  text := String.ofList digits

/-
  The lexeme at the front of a text and the text after it,
  if a token can begin there.
-/
def read? : List Char → Option (Lexeme × List Char)
| [] => none
| c :: cs =>
    if isWordStart c then
      some (ofWord (c :: cs.takeWhile isWordPart),
        cs.dropWhile isWordPart)
    else if c.isDigit then
      some (ofDigits (c :: cs.takeWhile Char.isDigit),
        cs.dropWhile Char.isDigit)
    else
      (signKind? c).map fun kind =>
        (⟨kind, String.ofList [c]⟩, cs)

end Lexeme

end IntDecl

------------------------------------------------------------
-- What Is Read
------------------------------------------------------------

namespace IntDecl

namespace Lexeme

/- Reading a lexeme divides a text without loss. -/
theorem text_append_of_read?
    {cs rest : List Char}
    {l : Lexeme}
    (hRead : read? cs = some (l, rest)) :
    l.text.toList ++ rest = cs := by
  cases cs with
  | nil =>
      simp [read?] at hRead
  | cons c cs =>
      simp only [read?] at hRead
      split at hRead
      · cases hRead
        simp [ofWord, List.takeWhile_append_dropWhile]
      · split at hRead
        · cases hRead
          simp [ofDigits, List.takeWhile_append_dropWhile]
        · simp only [Option.map_eq_some_iff,
            Prod.mk.injEq] at hRead
          rcases hRead with ⟨_, _, hLexeme, hRest⟩
          simp [← hLexeme, ← hRest]

/- A lexeme is read wherever a token can begin. -/
theorem isSome_read?_iff
    (c : Char)
    (cs : List Char) :
    (read? (c :: cs)).isSome = startsToken c := by
  rw [read?, startsToken]
  by_cases hWord : isWordStart c = true
  · simp [hWord]
  · by_cases hDigit : c.isDigit = true
    · simp [hWord, hDigit]
    · simp [hWord, hDigit]

end Lexeme

end IntDecl

------------------------------------------------------------
-- Progress
------------------------------------------------------------

namespace IntDecl

namespace Lexeme

/- Reading a lexeme leaves a shorter text. -/
theorem length_lt_of_read?
    {cs rest : List Char}
    {l : Lexeme}
    (hRead : read? cs = some (l, rest)) :
    rest.length < cs.length := by
  cases cs with
  | nil =>
      simp [read?] at hRead
  | cons c cs =>
      have hWord :=
        (cs.dropWhile_sublist isWordPart).length_le
      have hDigits :=
        (cs.dropWhile_sublist Char.isDigit).length_le
      simp only [read?] at hRead
      split at hRead
      · cases hRead
        simp only [List.length_cons]
        omega
      · split at hRead
        · cases hRead
          simp only [List.length_cons]
          omega
        · simp only [Option.map_eq_some_iff,
            Prod.mk.injEq] at hRead
          rcases hRead with ⟨_, _, _, hRest⟩
          simp [← hRest]

/- No sign is the end mark. -/
theorem signKind?_ne_endOfInput
    (c : Char) :
    signKind? c ≠ some .endOfInput := by
  unfold signKind?
  split <;> simp

/- The end mark is never read off a text. -/
theorem kind_ne_endOfInput_of_read?
    {cs rest : List Char}
    {l : Lexeme}
    (hRead : read? cs = some (l, rest)) :
    l.kind ≠ .endOfInput := by
  cases cs with
  | nil =>
      simp [read?] at hRead
  | cons c cs =>
      simp only [read?] at hRead
      split at hRead
      · cases hRead
        simp only [ofWord]
        split <;> simp
      · split at hRead
        · cases hRead
          simp [ofDigits]
        · simp only [Option.map_eq_some_iff,
            Prod.mk.injEq] at hRead
          rcases hRead with ⟨kind, hKind, hLexeme, _⟩
          subst hLexeme
          intro hEnd
          simp only at hEnd
          subst hEnd
          exact signKind?_ne_endOfInput c hKind

end Lexeme

end IntDecl
