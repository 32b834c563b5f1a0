import IntDecl.Text

/-
  This file defines the kinds of tokens and lexemes, the
  classified words of a source.

  Key definitions include:
    * `TokenKind`
    * `TokenKind.name`
    * `TokenKind.all`
    * `Lexeme`
    * `Lexeme.size`
    * `Lexeme.display`
    * `Lexeme.describe`
    * `Lexeme.kinds`

  Key theorems include:
    * `TokenKind.mem_all`
-/

------------------------------------------------------------
-- Token Kinds
------------------------------------------------------------

namespace IntDecl

/-
  The kinds of tokens: the keyword `int`, names, numbers, the
  signs of the language, and the mark that ends a sequence.
-/
inductive TokenKind where
| intKeyword
| identifier
| assign
| number
| plus
| multiply
| lparen
| rparen
| semicolon
| endOfInput
deriving DecidableEq, Repr

namespace TokenKind

/- The name of a kind in messages. -/
def name : TokenKind → String
| .intKeyword => "IntKeyword"
| .identifier => "Identifier"
| .assign => "Assign"
| .number => "Number"
| .plus => "Plus"
| .multiply => "Multiply"
| .lparen => "LParen"
| .rparen => "RParen"
| .semicolon => "Semicolon"
| .endOfInput => "EndOfInput"

/- Every kind once, the end mark last. -/
def all : List TokenKind :=
  [.intKeyword, .identifier, .assign, .number, .plus,
    .multiply, .lparen, .rparen, .semicolon, .endOfInput]

/- No kind is left out of the list. -/
theorem mem_all
    (k : TokenKind) :
    k ∈ all := by
  cases k <;> decide

end TokenKind

end IntDecl

------------------------------------------------------------
-- Lexemes
------------------------------------------------------------

namespace IntDecl

/- A text together with the kind it was found to be. -/
structure Lexeme where
  kind : TokenKind
  text : String
deriving DecidableEq, Repr

namespace Lexeme

/- The number of bytes of the text. -/
def size (l : Lexeme) : Nat :=
  Text.byteLength l.text.toList

/- Kind and text for a listing. -/
def display (l : Lexeme) : String :=
  l.kind.name ++ ": " ++ l.text

/- Kind and quoted text for a message. -/
def describe (l : Lexeme) : String :=
  l.kind.name ++ "(" ++ Text.quote l.text ++ ")"

/- The kinds of some lexemes. -/
def kinds (lexemes : List Lexeme) : List TokenKind :=
  lexemes.map kind

@[simp] theorem kinds_append
    (first second : List Lexeme) :
    kinds (first ++ second) =
      kinds first ++ kinds second :=
  List.map_append

@[simp] theorem kinds_cons
    (l : Lexeme)
    (lexemes : List Lexeme) :
    kinds (l :: lexemes) = l.kind :: kinds lexemes := rfl

end Lexeme

end IntDecl
