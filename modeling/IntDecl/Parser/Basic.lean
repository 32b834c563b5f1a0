import IntDecl.Grammar
import IntDecl.Span.Snippet
import IntDecl.Token.Sequence

/-
  This file defines syntax errors with their reports, and
  parsers, the positions within token sequences from which
  phrases are recognized.

  Key definitions include:
    * `SyntaxError`
    * `SyntaxError.message`
    * `SyntaxError.report`
    * `SyntaxError.Agrees`
    * `Parser`
    * `Parser.peek`
    * `Parser.advance`
    * `ParseEvent`
    * `Outcome`

  Key theorems include:
    * `Parser.getElem?_tokens_cursor`
    * `Parser.advance_before`
    * `Parser.length_ahead_advance_lt`
-/

------------------------------------------------------------
-- Syntax Errors
------------------------------------------------------------

namespace IntDecl

/-
  A token that does not fit: the kinds that would have
  fitted, the token, and the names of the phrases that were
  open there, outermost first.
-/
structure SyntaxError where
  expected : List TokenKind
  found : Token
  stack : List String
deriving DecidableEq, Repr

namespace SyntaxError

/- A syntax error stands where its token stands. -/
def span (e : SyntaxError) : Span :=
  e.found.span

/- Two errors agree if they differ in places only. -/
def Agrees (e f : SyntaxError) : Prop :=
  e.expected = f.expected ∧
    e.found.toLexeme = f.found.toLexeme ∧
    e.stack = f.stack

instance (e f : SyntaxError) : Decidable (e.Agrees f) := by
  unfold Agrees
  infer_instance

end SyntaxError

end IntDecl

------------------------------------------------------------
-- Reports
------------------------------------------------------------

namespace IntDecl

namespace SyntaxError

/- The token that was found: its kind and, if any, its text. -/
def finding (e : SyntaxError) : String :=
  if e.found.text.isEmpty then
    e.found.kind.name
  else
    e.found.kind.name ++ " " ++ Text.quote e.found.text

/- One sentence on what was expected and what was found. -/
def message (e : SyntaxError) : String :=
  "syntax error: expected " ++
    " or ".intercalate (e.expected.map TokenKind.name) ++
    ", found " ++ e.finding

/- The open phrases, one numbered line for each. -/
def openPhrases (e : SyntaxError) : String :=
  if e.stack.isEmpty then
    ""
  else
    "non terminal stack:\n" ++
      String.join (e.stack.zipIdx.map fun entry =>
        "  " ++ toString entry.2 ++ ": " ++ entry.1 ++ "\n")

/-
  An error shown with its source: the message, the place,
  and the open phrases.
-/
def report
    (e : SyntaxError)
    (src : String) :
    String :=
  e.message ++ "\n" ++ e.span.snippet src ++ e.openPhrases

end SyntaxError

end IntDecl

------------------------------------------------------------
-- Parsers
------------------------------------------------------------

namespace IntDecl

/-
  The tokens ahead of a position, the place of the end mark
  after them, and the number of tokens before the position.
-/
structure Parser where
  ahead : List Token
  marker : Span
  cursor : Nat
deriving DecidableEq, Repr

namespace Parser

/- The parser before a position of a sequence. -/
def before
    (ts : TokenSequence)
    (cursor : Nat) :
    Parser where
  ahead := ts.body.drop cursor
  marker := ts.marker
  cursor := cursor

/- The parser at the start of a sequence. -/
def ofSequence (ts : TokenSequence) : Parser :=
  before ts 0

/- The token at the position, at last the end mark. -/
def peek (p : Parser) : Token :=
  p.ahead.headD (Token.endOfInput p.marker)

/- The parser after that token. The end mark is not passed. -/
def advance (p : Parser) : Parser :=
  match p.ahead with
  | [] => p
  | _ :: rest =>
      { p with ahead := rest, cursor := p.cursor + 1 }

/- What is seen before a position is the token there. -/
theorem getElem?_tokens_cursor
    {ts : TokenSequence}
    {cursor : Nat}
    (hCursor : cursor < ts.size) :
    ts.tokens[cursor]? = some (before ts cursor).peek := by
  rw [TokenSequence.size_eq] at hCursor
  simp only [TokenSequence.tokens, peek, before,
    List.headD_eq_head?_getD, List.head?_drop]
  by_cases hBody : cursor < ts.body.length
  · rw [List.getElem?_append_left hBody]
    simp [hBody]
  · have hEnd : cursor = ts.body.length := by
      omega
    subst hEnd
    simp

/- Passing a token moves to the next position. -/
theorem advance_before
    {ts : TokenSequence}
    {cursor : Nat}
    (hBody : cursor < ts.body.length) :
    (before ts cursor).advance = before ts (cursor + 1) := by
  unfold advance before
  rw [List.drop_eq_getElem_cons hBody]

/- The end mark is not passed. -/
theorem advance_before_length
    (ts : TokenSequence) :
    (before ts ts.body.length).advance =
      before ts ts.body.length := by
  simp [advance, before]

/- Passing a token other than the end mark is progress. -/
theorem length_ahead_advance_lt
    {p : Parser}
    {kind : TokenKind}
    (hKind : p.peek.kind = kind)
    (hNe : kind ≠ .endOfInput) :
    p.advance.ahead.length < p.ahead.length := by
  unfold peek at hKind
  unfold advance
  cases hAhead : p.ahead with
  | nil =>
      rw [hAhead] at hKind
      exact absurd hKind.symm hNe
  | cons token rest =>
      simp

/- Passing a token adds none to those ahead. -/
theorem length_ahead_advance_le
    (p : Parser) :
    p.advance.ahead.length ≤ p.ahead.length := by
  unfold advance
  split
  · exact Nat.le_refl _
  · rename_i token rest hAhead
    simp [hAhead]

end Parser

end IntDecl

------------------------------------------------------------
-- Outcomes
------------------------------------------------------------

namespace IntDecl

/-
  What can be reported while phrases are recognized: a phrase
  begins, a token is passed, a phrase ends with or without
  success. Each event has the position after it.
-/
inductive ParseEvent where
| opened (phrase : NonTerminal) (cursor : Nat)
| consumed (token : Token) (cursor : Nat)
| closed (phrase : NonTerminal) (cursor : Nat) (ok : Bool)
deriving DecidableEq, Repr

/-
  How recognition ended: the events in order, the position
  reached, and the error there, if it failed.
-/
structure Outcome where
  trace : List ParseEvent
  parser : Parser
  error? : Option SyntaxError
deriving DecidableEq, Repr

namespace Outcome

/- An outcome with an earlier event. -/
def preceded
    (o : Outcome)
    (event : ParseEvent) :
    Outcome :=
  { o with trace := event :: o.trace }

/- The tokens that were passed, in order. -/
def consumed (o : Outcome) : List Token :=
  o.trace.filterMap fun event =>
    match event with
    | .consumed token _ => some token
    | _ => none

end Outcome

end IntDecl
