import IntDecl.Numeral
import IntDecl.Token.Sequence

/-
  This file folds the additions of a token sequence.

  A window of two numbers with a plus sign between them gives
  way to the number that is their sum. The window moves from
  left to right; after a sum it stays, so that a chain of
  additions folds into one number. A window moves on where
  the sum, or a number in it, is out of bounds. Parentheses
  and multiplications around a window do not matter. The form
  that replaces windows of a sequence in place, with the end
  mark in sight, is `TokenSequence.foldFrom`.

  Key definitions include:
    * `Token.IsAddition`
    * `Token.sum?`
    * `FoldEvent`
    * `Folded`
    * `Folded.ofTokens`
    * `TokenSequence.fold`

  Key theorems include:
    * `Folded.kind_ne_endOfInput_of_mem`
-/

------------------------------------------------------------
-- Sums Of Tokens
------------------------------------------------------------

namespace IntDecl

namespace Token

/- Two numbers with a plus sign between them. -/
def IsAddition (lhs op rhs : Token) : Prop :=
  lhs.kind = .number ∧ op.kind = .plus ∧ rhs.kind = .number

instance (lhs op rhs : Token) :
    Decidable (IsAddition lhs op rhs) := by
  unfold IsAddition
  infer_instance

/-
  The number that is the sum of two others, if they and it
  are in bounds. It takes the place of both.
-/
def sum? (lhs rhs : Token) : Option Token :=
  match Numeral.read? lhs.text, Numeral.read? rhs.text with
  | some m, some n =>
      (Numeral.add? m n).map fun sum =>
        { kind := .number
          text := Numeral.write sum
          span := lhs.span.join rhs.span }
  | _, _ => none

/- A sum of tokens is a number. -/
theorem kind_of_sum?
    {lhs rhs token : Token}
    (hSum : lhs.sum? rhs = some token) :
    token.kind = .number := by
  unfold sum? at hSum
  split at hSum
  · rw [Option.map_eq_some_iff] at hSum
    rcases hSum with ⟨sum, _, hToken⟩
    rw [← hToken]
  · cases hSum

end Token

end IntDecl

------------------------------------------------------------
-- Folding Tokens
------------------------------------------------------------

namespace IntDecl

/-
  What can be reported while tokens are folded: the window
  at a position gave way to a sum, or the two numbers of a
  window stay apart.
-/
inductive FoldEvent where
| folded (position : Nat) (sum : Token)
| refused (lhs rhs : String)
deriving DecidableEq, Repr

/- The tokens that folding leaves and its events in order. -/
structure Folded where
  tokens : List Token
  events : List FoldEvent
deriving DecidableEq, Repr

namespace Folded

/- A token that stays, before what folding leaves. -/
def keeping
    (f : Folded)
    (token : Token) :
    Folded :=
  { f with tokens := token :: f.tokens }

/- An event that came before the others. -/
def preceded
    (f : Folded)
    (event : FoldEvent) :
    Folded :=
  { f with events := event :: f.events }

/- Folds the tokens from a position of a sequence on. -/
def ofTokens
    (position : Nat) :
    List Token → Folded
| lhs :: op :: rhs :: rest =>
    if lhs.IsAddition op rhs then
      match lhs.sum? rhs with
      | some sum =>
          (ofTokens position (sum :: rest)).preceded
            (.folded position sum)
      | none =>
          ((ofTokens (position + 1)
            (op :: rhs :: rest)).keeping lhs).preceded
            (.refused lhs.text rhs.text)
    else
      (ofTokens (position + 1) (op :: rhs :: rest)).keeping lhs
| tokens => { tokens := tokens, events := [] }
termination_by tokens => tokens.length

/- Folding places no end mark among the tokens. -/
theorem kind_ne_endOfInput_of_mem
    {position : Nat}
    {tokens : List Token}
    (hTokens : ∀ token ∈ tokens, token.kind ≠ .endOfInput) :
    ∀ token ∈ (ofTokens position tokens).tokens,
      token.kind ≠ .endOfInput := by
  fun_induction ofTokens position tokens with
  | case1 position lhs op rhs rest hAddition sum hSum ih =>
      apply ih
      intro token hMem
      rcases List.mem_cons.mp hMem with hEq | hRest
      · rw [hEq, Token.kind_of_sum? hSum]
        decide
      · apply hTokens
        simp [hRest]
  | case2 position lhs op rhs rest hAddition hSum ih =>
      intro token hMem
      rcases List.mem_cons.mp hMem with hEq | hRest
      · apply hTokens
        simp [hEq]
      · exact ih (fun t ht =>
          hTokens t (List.mem_cons_of_mem _ ht)) token hRest
  | case3 position lhs op rhs rest hAddition ih =>
      intro token hMem
      rcases List.mem_cons.mp hMem with hEq | hRest
      · apply hTokens
        simp [hEq]
      · exact ih (fun t ht =>
          hTokens t (List.mem_cons_of_mem _ ht)) token hRest
  | case4 position tokens hShort =>
      exact hTokens

end Folded

end IntDecl

------------------------------------------------------------
-- Folding Sequences
------------------------------------------------------------

namespace IntDecl

namespace TokenSequence

/- The tokens of a sequence folded, with the events. -/
def folded (ts : TokenSequence) : Folded :=
  Folded.ofTokens 0 ts.body

/- A sequence with its additions folded. -/
def fold (ts : TokenSequence) : TokenSequence where
  body := ts.folded.tokens
  marker := ts.marker
  unmarked := Folded.kind_ne_endOfInput_of_mem ts.unmarked

end TokenSequence

end IntDecl
