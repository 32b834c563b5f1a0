import IntDecl.Lexeme.Reading
import IntDecl.Numeral

/-
  This file writes lexemes out as a text.

  A text is written as gaps and lexemes in turn. Two lexemes
  that would run together when they are written side by side
  need a gap between them.

  Key definitions include:
    * `Lexeme.IsWord`
    * `Lexeme.IsValid`
    * `Lexeme.Glues`
    * `Lexeme.IsGap`
    * `Lexeme.Written`
    * `Lexeme.write`
-/

------------------------------------------------------------
-- Valid Lexemes
------------------------------------------------------------

namespace IntDecl

namespace Lexeme

/- The texts of names and of the keyword. -/
def IsWord : List Char → Prop
| [] => False
| c :: cs =>
    isWordStart c = true ∧ ∀ d ∈ cs, isWordPart d = true

instance (cs : List Char) : Decidable (IsWord cs) :=
  match cs with
  | [] => isFalse id
  | c :: cs =>
      decidable_of_iff
        (isWordStart c = true ∧ cs.all isWordPart = true)
        (by simp [IsWord])

/- A lexeme is valid when its text is one for its kind. -/
def IsValid (l : Lexeme) : Prop :=
  match l.kind with
  | .intKeyword => l.text = "int"
  | .identifier => IsWord l.text.toList ∧ l.text ≠ "int"
  | .assign => l.text = "="
  | .number => Numeral.IsDigits l.text.toList
  | .plus => l.text = "+"
  | .multiply => l.text = "*"
  | .lparen => l.text = "("
  | .rparen => l.text = ")"
  | .semicolon => l.text = ";"
  | .endOfInput => False

instance (l : Lexeme) : Decidable l.IsValid := by
  unfold IsValid
  cases l.kind <;> infer_instance

end Lexeme

end IntDecl

------------------------------------------------------------
-- Writing
------------------------------------------------------------

namespace IntDecl

namespace Lexeme

/-
  Two lexemes run together when the second could continue the
  first: a name or number after a name, a number after a
  number.
-/
def Glues (l m : Lexeme) : Prop :=
  (l.kind ∈ [.intKeyword, .identifier] ∧
      m.kind ∈ [.intKeyword, .identifier, .number]) ∨
    (l.kind = .number ∧ m.kind = .number)

instance (l m : Lexeme) : Decidable (l.Glues m) := by
  unfold Glues
  infer_instance

/- The texts that hold no token and begin none. -/
def IsGap (cs : List Char) : Prop :=
  ∀ c ∈ cs, startsToken c = false

instance (cs : List Char) : Decidable (IsGap cs) :=
  decidable_of_iff
    (cs.all (fun c => !startsToken c) = true)
    (by simp [IsGap])

/-
  Gaps with the lexemes after them are a written form when
  each lexeme is valid and lexemes that run together have a
  gap between them that is not empty.
-/
inductive Written : List (List Char × Lexeme) → Prop where
| nil :
    Written []
| single
    {gap : List Char}
    {l : Lexeme}
    (hGap : IsGap gap)
    (hValid : l.IsValid) :
    Written [(gap, l)]
| cons
    {gap next : List Char}
    {l m : Lexeme}
    {rest : List (List Char × Lexeme)}
    (hGap : IsGap gap)
    (hValid : l.IsValid)
    (hGlue : l.Glues m → next ≠ [])
    (hRest : Written ((next, m) :: rest)) :
    Written ((gap, l) :: (next, m) :: rest)

/- The text of gaps and the lexemes after them. -/
def write (items : List (List Char × Lexeme)) : List Char :=
  items.flatMap fun item => item.1 ++ item.2.text.toList

end Lexeme

end IntDecl
