import IntDecl.Parser.Basic

/-
  This file recognizes the phrases of the grammar.

  A parser works through an agenda of goals. The goal of a
  phrase is replaced by the goals of its parts, and one token
  ahead always decides what to do. Recognition never goes
  back and stops at the first token that does not fit. The
  form with a procedure for each phrase and a stack of open
  phrases is `Descent.recognize`.

  Key definitions include:
    * `Goal`
    * `Parser.run`
    * `Parser.expect`
    * `Parser.recognize`
    * `TokenSequence.syntaxError?`
-/

------------------------------------------------------------
-- Goals
------------------------------------------------------------

namespace IntDecl

/-
  The goals on an agenda: to pass a token of a kind, to
  recognize a phrase, to recognize any number of further
  terms or factors behind their signs, and to end a phrase.
-/
inductive Goal where
| token (kind : TokenKind)
| phrase (n : NonTerminal)
| moreTerms
| moreFactors
| close (n : NonTerminal)
deriving DecidableEq, Repr

namespace Goal

/-
  A bound on the goals that a goal leads to before a token is
  passed.
-/
def weight : Goal → Nat
| .phrase .program => 13
| .phrase .expression => 7
| .phrase .term => 4
| .phrase .factor => 1
| .token _ => 1
| .moreTerms => 1
| .moreFactors => 1
| .close _ => 1

/- The weight of an agenda. -/
def totalWeight : List Goal → Nat
| [] => 0
| goal :: goals => goal.weight + totalWeight goals

/- The phrases that an agenda will end, innermost first. -/
def openPhrases (goals : List Goal) : List NonTerminal :=
  goals.filterMap fun goal =>
    match goal with
    | .close n => some n
    | _ => none

end Goal

end IntDecl

------------------------------------------------------------
-- Recognition
------------------------------------------------------------

namespace IntDecl

namespace Parser

/- The event of passing the token at the position. -/
def passing (p : Parser) : ParseEvent :=
  .consumed p.peek p.advance.cursor

/-
  The outcome where the token at the position does not fit.
  All open phrases end there without success.
-/
def failure
    (expected : List TokenKind)
    (goals : List Goal)
    (p : Parser) :
    Outcome where
  trace := (Goal.openPhrases goals).map fun n =>
    .closed n p.cursor false
  parser := p
  error? := some
    { expected := expected
      found := p.peek
      stack :=
        (Goal.openPhrases goals).reverse.map
          NonTerminal.name }

/- The outcome of working through an agenda. -/
def run : List Goal → Parser → Outcome
| [], p =>
    { trace := [], parser := p, error? := none }
| .close n :: goals, p =>
    (run goals p).preceded (.closed n p.cursor true)
| .token kind :: goals, p =>
    if p.peek.kind = kind then
      (run goals p.advance).preceded p.passing
    else
      failure [kind] goals p
| .moreTerms :: goals, p =>
    if hPlus : p.peek.kind = .plus then
      have := length_ahead_advance_lt hPlus (by decide)
      (run (.phrase .term :: .moreTerms :: goals)
        p.advance).preceded p.passing
    else
      run goals p
| .moreFactors :: goals, p =>
    if hMultiply : p.peek.kind = .multiply then
      have := length_ahead_advance_lt hMultiply (by decide)
      (run (.phrase .factor :: .moreFactors :: goals)
        p.advance).preceded p.passing
    else
      run goals p
| .phrase .program :: goals, p =>
    (run (.token .intKeyword :: .token .identifier ::
      .token .assign :: .phrase .expression ::
      .token .semicolon :: .close .program :: goals)
      p).preceded (.opened .program p.cursor)
| .phrase .expression :: goals, p =>
    (run (.phrase .term :: .moreTerms ::
      .close .expression :: goals)
      p).preceded (.opened .expression p.cursor)
| .phrase .term :: goals, p =>
    (run (.phrase .factor :: .moreFactors ::
      .close .term :: goals)
      p).preceded (.opened .term p.cursor)
| .phrase .factor :: goals, p =>
    Outcome.preceded
      (if hNumber : p.peek.kind = .number then
        have := length_ahead_advance_lt hNumber (by decide)
        (run (.close .factor :: goals)
          p.advance).preceded p.passing
      else if hGroup : p.peek.kind = .lparen then
        have := length_ahead_advance_lt hGroup (by decide)
        (run (.phrase .expression :: .token .rparen ::
          .close .factor :: goals)
          p.advance).preceded p.passing
      else
        failure [.number, .lparen]
          (.close .factor :: goals) p)
      (.opened .factor p.cursor)
termination_by goals p =>
  10 * p.ahead.length + Goal.totalWeight goals
decreasing_by
  all_goals
    have hLe := length_ahead_advance_le p
    simp only [Goal.totalWeight, Goal.weight]
    omega

end Parser

end IntDecl

------------------------------------------------------------
-- Requests
------------------------------------------------------------

namespace IntDecl

namespace Parser

/- Passes one token of a kind. -/
def expect
    (kind : TokenKind)
    (p : Parser) :
    Outcome :=
  run [.token kind] p

/- Recognizes one phrase. -/
def recognize
    (n : NonTerminal)
    (p : Parser) :
    Outcome :=
  run [.phrase n] p

end Parser

namespace TokenSequence

/- How a sequence is recognized as a program. -/
def parse (ts : TokenSequence) : Outcome :=
  (Parser.ofSequence ts).recognize .program

/-
  The error in a sequence that does not begin with a program.
  What comes after a program does not matter.
-/
def syntaxError? (ts : TokenSequence) : Option SyntaxError :=
  ts.parse.error?

end TokenSequence

end IntDecl
