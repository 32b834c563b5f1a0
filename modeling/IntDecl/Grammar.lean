import IntDecl.Lexeme.Basic
import IntDecl.Numeral

/-
  This file defines the grammar of integer declarations and
  the values of its phrases.

    Program    ::= int Identifier = Expression ;
    Expression ::= Term ( + Term )*
    Term       ::= Factor ( * Factor )*
    Factor     ::= Number | ( Expression )

  The grammar speaks of kinds of tokens only. Values are
  natural numbers of any size, `*` binds tighter than `+`,
  and parentheses group.

  Key definitions include:
    * `NonTerminal`
    * `Derives`
    * `Viable`
    * `Denotes`
-/

------------------------------------------------------------
-- Non-Terminals
------------------------------------------------------------

namespace IntDecl

/- The phrases of the language. -/
inductive NonTerminal where
| program
| expression
| term
| factor
deriving DecidableEq, Repr

namespace NonTerminal

/- The name of a phrase in messages. -/
def name : NonTerminal → String
| .program => "Program"
| .expression => "Expression"
| .term => "Term"
| .factor => "Factor"

end NonTerminal

end IntDecl

------------------------------------------------------------
-- Derivations
------------------------------------------------------------

namespace IntDecl

/- The lists of kinds that form a phrase. -/
inductive Derives : NonTerminal → List TokenKind → Prop where
| number :
    Derives .factor [.number]
| group
    {inner : List TokenKind}
    (hInner : Derives .expression inner) :
    Derives .factor (.lparen :: inner ++ [.rparen])
| term
    {first : List TokenKind}
    {others : List (List TokenKind)}
    (hFirst : Derives .factor first)
    (hOthers : ∀ other ∈ others, Derives .factor other) :
    Derives .term
      (first ++ others.flatMap (.multiply :: ·))
| expression
    {first : List TokenKind}
    {others : List (List TokenKind)}
    (hFirst : Derives .term first)
    (hOthers : ∀ other ∈ others, Derives .term other) :
    Derives .expression
      (first ++ others.flatMap (.plus :: ·))
| program
    {body : List TokenKind}
    (hBody : Derives .expression body) :
    Derives .program
      ([.intKeyword, .identifier, .assign] ++ body ++
        [.semicolon])

/- The lists of kinds that some further kinds complete. -/
def Viable (kinds : List TokenKind) : Prop :=
  ∃ further, Derives .program (kinds ++ further)

end IntDecl

------------------------------------------------------------
-- Values
------------------------------------------------------------

namespace IntDecl

/- A phrase of the language and the number it stands for. -/
inductive Denotes :
    NonTerminal → List Lexeme → Nat → Prop where
| number
    {digits : List Char}
    (hDigits : Numeral.IsDigits digits) :
    Denotes .factor [⟨.number, String.ofList digits⟩]
      (Numeral.value digits)
| group
    {inner : List Lexeme}
    {n : Nat}
    (hInner : Denotes .expression inner n) :
    Denotes .factor
      (⟨.lparen, "("⟩ :: inner ++ [⟨.rparen, ")"⟩]) n
| term
    {first : List Lexeme}
    {n : Nat}
    {others : List (List Lexeme × Nat)}
    (hFirst : Denotes .factor first n)
    (hOthers :
      ∀ other ∈ others, Denotes .factor other.1 other.2) :
    Denotes .term
      (first ++ others.flatMap fun other =>
        ⟨.multiply, "*"⟩ :: other.1)
      (others.foldl (fun product other =>
        product * other.2) n)
| expression
    {first : List Lexeme}
    {n : Nat}
    {others : List (List Lexeme × Nat)}
    (hFirst : Denotes .term first n)
    (hOthers :
      ∀ other ∈ others, Denotes .term other.1 other.2) :
    Denotes .expression
      (first ++ others.flatMap fun other =>
        ⟨.plus, "+"⟩ :: other.1)
      (others.foldl (fun sum other => sum + other.2) n)
| program
    {word : String}
    {body : List Lexeme}
    {n : Nat}
    (hBody : Denotes .expression body n) :
    Denotes .program
      ([⟨.intKeyword, "int"⟩, ⟨.identifier, word⟩,
        ⟨.assign, "="⟩] ++ body ++ [⟨.semicolon, ";"⟩]) n

end IntDecl
