import IntDecl.Parser.Run

/-
  This file recognizes the phrases of the grammar by
  recursive descent.

  Each phrase has a procedure, which calls the procedures of
  its parts. The open phrases stand on a stack: a phrase is
  pushed when its procedure starts and popped when it ends,
  with or without success. An error takes a copy of the stack
  with it and ends every procedure on the way out. That the
  procedures return at all is no part of their definitions;
  it is proved together with what they do.

  Key definitions include:
    * `Descent`
    * `Descent.Procedure`
    * `Descent.Attempt`
    * `Descent.expect`
    * `Descent.within`
    * `Descent.recognize`

  Key theorems include:
    * `Descent.recognizeExpression_eq`
    * `Descent.recognizeTerm_eq`
    * `Descent.recognizeFactor_eq`
-/

------------------------------------------------------------
-- Procedures
------------------------------------------------------------

namespace IntDecl

/-
  What the procedures work on: the position, the open phrases,
  outermost first, and the events so far, in order.
-/
structure Descent where
  parser : Parser
  stack : List NonTerminal
  trace : List ParseEvent
deriving DecidableEq, Repr

namespace Descent

/- A procedure that may change the state or run forever. -/
abbrev Procedure :=
  StateT Descent Option

/- A procedure that may also end with a syntax error. -/
abbrev Attempt :=
  ExceptT SyntaxError Procedure

/- Reports an event. -/
def log (event : ParseEvent) : Procedure Unit :=
  modify fun d => { d with trace := d.trace ++ [event] }

/- The token at the position. -/
def peek : Procedure Token := do
  return (← get).parser.peek

/- Passes the token at the position. -/
def consume : Procedure Token := do
  let token ← peek
  modify fun d => { d with parser := d.parser.advance }
  log (.consumed token (← get).parser.cursor)
  return token

/- Passes the token at the position if it is of a kind. -/
def consumeIf
    (kind : TokenKind) :
    Procedure (Option Token) := do
  if (← peek).kind = kind then
    return some (← consume)
  else
    return none

/- The error at the position, with the phrases now open. -/
def error
    (expected : List TokenKind) :
    Procedure SyntaxError := do
  let d ← get
  return {
    expected := expected
    found := d.parser.peek
    stack := d.stack.map NonTerminal.name }

/- Passes a token of a kind or fails. -/
def expect (kind : TokenKind) : Attempt Token := do
  match ← consumeIf kind with
  | some token => return token
  | none => throw (← error [kind])

/- Starts a phrase. -/
def enter (n : NonTerminal) : Procedure Unit := do
  log (.opened n (← get).parser.cursor)
  modify fun d => { d with stack := d.stack ++ [n] }

/- Ends a phrase and hands on how it went. -/
def leave
    (n : NonTerminal)
    (verdict : Except SyntaxError Unit) :
    Procedure (Except SyntaxError Unit) := do
  modify fun d => { d with stack := d.stack.dropLast }
  log (.closed n (← get).parser.cursor verdict.toBool)
  return verdict

/- A phrase around a procedure. -/
def within
    (n : NonTerminal)
    (body : Attempt Unit) :
    Attempt Unit :=
  (do
    enter n
    leave n (← body.run) : Procedure _)

end Descent

end IntDecl

------------------------------------------------------------
-- Phrases
------------------------------------------------------------

namespace IntDecl

namespace Descent

/-
  The phrases that call each other, and the loops over the
  further terms and factors. A call is a run of the procedure
  that is called. In place of `within` its two ends are
  written out here, since only what is written out is seen to
  be monotone in the calls.
-/
mutual

def recognizeExpression : Attempt Unit :=
  (do
    enter .expression
    leave .expression (← ExceptT.run do
      recognizeTerm.run
      recognizeMoreTerms.run) : Procedure _)
partial_fixpoint

def recognizeMoreTerms : Attempt Unit := do
  if (← consumeIf .plus).isSome then
    recognizeTerm.run
    recognizeMoreTerms.run
partial_fixpoint

def recognizeTerm : Attempt Unit :=
  (do
    enter .term
    leave .term (← ExceptT.run do
      recognizeFactor.run
      recognizeMoreFactors.run) : Procedure _)
partial_fixpoint

def recognizeMoreFactors : Attempt Unit := do
  if (← consumeIf .multiply).isSome then
    recognizeFactor.run
    recognizeMoreFactors.run
partial_fixpoint

def recognizeFactor : Attempt Unit :=
  (do
    enter .factor
    leave .factor (← ExceptT.run do
      match (← peek).kind with
      | .number =>
          let _ ← consume
      | .lparen =>
          let _ ← consume
          recognizeExpression.run
          let _ ← expect .rparen
      | _ =>
          throw (← error [.number, .lparen])) : Procedure _)
partial_fixpoint

end

/- A complete program. -/
def recognizeProgram : Attempt Unit :=
  within .program do
    let _ ← expect .intKeyword
    let _ ← expect .identifier
    let _ ← expect .assign
    recognizeExpression
    let _ ← expect .semicolon

/- The procedure of each phrase. -/
def recognize : NonTerminal → Attempt Unit
| .program => recognizeProgram
| .expression => recognizeExpression
| .term => recognizeTerm
| .factor => recognizeFactor

/- An expression is a term and further terms. -/
theorem recognizeExpression_eq :
    recognizeExpression =
      within .expression (do
        recognizeTerm
        recognizeMoreTerms) := by
  rw [recognizeExpression]
  rfl

/- A term is a factor and further factors. -/
theorem recognizeTerm_eq :
    recognizeTerm =
      within .term (do
        recognizeFactor
        recognizeMoreFactors) := by
  rw [recognizeTerm]
  rfl

/- A factor is a number or an expression in parentheses. -/
theorem recognizeFactor_eq :
    recognizeFactor =
      within .factor (do
        match (← peek).kind with
        | .number =>
            let _ ← consume
        | .lparen =>
            let _ ← consume
            recognizeExpression
            let _ ← expect .rparen
        | _ =>
            throw (← error [.number, .lparen])) := by
  rw [recognizeFactor]
  rfl

end Descent

end IntDecl
