import IntDecl.Parser.Descent
import IntDecl.Proofs.Session

/-
  This file proves that recursive descent and the run of an
  agenda are the same.

  An agenda lists the calls that are still to come and, as
  goals to end phrases, the calls that have not returned. So
  the stack of a descent holds the phrases that the agenda
  will end, and an error that leaves one procedure after the
  other ends them in the order of the agenda.

  Key definitions include:
    * `Outcome.verdict`
    * `Descent.facing`
    * `Descent.attempt`
    * `Descent.unwind`
    * `Descent.pursue`
    * `Descent.answer`
    * `Descent.answerAll`

  Key theorems include:
    * `Descent.pursue_append`
    * `Descent.attempt_of_replace`
    * `Descent.attempt_of_pass`
    * `Descent.attempt_of_reject`
    * `Descent.pursue_facing`
    * `Descent.recognize_eq`
    * `Descent.answerAll_eq`
-/

------------------------------------------------------------
-- Procedures In Sequence
------------------------------------------------------------

namespace IntDecl

namespace Descent

variable {α β : Type}

/- The second procedure starts where the first one ends. -/
theorem bind_apply
    (first : Procedure α)
    (second : α → Procedure β)
    (d : Descent) :
    (first >>= second) d =
      (first d).bind fun result =>
        second result.1 result.2 := rfl

/-
  What follows a procedure is told by what follows its success
  and what follows its errors.
-/
theorem bind_eq_of_verdict
    {result : Option (Except SyntaxError α × Descent)}
    {first second :
      Except SyntaxError α × Descent → Option β}
    (hOk :
      ∀ a d, first (.ok a, d) = second (.ok a, d))
    (hError :
      ∀ e d, first (.error e, d) = second (.error e, d)) :
    result.bind first = result.bind second := by
  rcases result with _ | ⟨verdict, d⟩
  · rfl
  · cases verdict with
    | ok a =>
        exact hOk a d
    | error e =>
        exact hError e d

/- An error keeps the second procedure from its start. -/
theorem attempt_bind_apply
    (first : Attempt α)
    (second : α → Attempt β)
    (d : Descent) :
    (first >>= second) d =
      (first d).bind fun result =>
        match result.1 with
        | .ok a => second a result.2
        | .error e => some (.error e, result.2) := by
  change Option.bind (first d) _ = _
  exact bind_eq_of_verdict
    (fun a reached => rfl) (fun e reached => rfl)

/- A procedure without errors is followed like any other. -/
theorem lift_bind_apply
    (first : Procedure α)
    (second : α → Attempt β)
    (d : Descent) :
    ((liftM first : Attempt α) >>= second) d =
      (first d).bind fun result =>
        second result.1 result.2 := by
  change Option.bind (Option.bind (first d) _) _ = _
  cases first d with
  | none =>
      rfl
  | some result =>
      rfl

end Descent

end IntDecl

------------------------------------------------------------
-- Steps Of A Descent
------------------------------------------------------------

namespace IntDecl

namespace Descent

/- A descent with open phrases, innermost first. -/
def facing
    (phrases : List NonTerminal)
    (p : Parser)
    (past : List ParseEvent) :
    Descent where
  parser := p
  stack := phrases.reverse
  trace := past

variable {phrases : List NonTerminal}
variable {p : Parser}
variable {past : List ParseEvent}
variable {kind : TokenKind}

theorem peek_facing :
    peek (facing phrases p past) =
      some (p.peek, facing phrases p past) := rfl

theorem consume_facing :
    consume (facing phrases p past) =
      some (p.peek,
        facing phrases p.advance (past ++ [p.passing])) := rfl

/- Starting a phrase makes it the innermost one. -/
theorem enter_facing
    (n : NonTerminal) :
    enter n (facing phrases p past) =
      some ((), facing (n :: phrases) p
        (past ++ [.opened n p.cursor])) := by
  have hStack : (n :: phrases).reverse =
      phrases.reverse ++ [n] := List.reverse_cons
  rw [facing, facing, hStack]
  rfl

/- The innermost phrase is ended. -/
theorem leave_facing
    (n : NonTerminal)
    (verdict : Except SyntaxError Unit) :
    leave n verdict (facing (n :: phrases) p past) =
      some (verdict, facing phrases p
        (past ++ [.closed n p.cursor verdict.toBool])) := by
  have hStack : (n :: phrases).reverse.dropLast =
      phrases.reverse := by
    rw [List.reverse_cons, List.dropLast_concat]
  rw [facing, facing, ← hStack]
  rfl

/- A token of the kind is passed. -/
theorem consumeIf_of_kind
    (hKind : p.peek.kind = kind) :
    consumeIf kind (facing phrases p past) =
      some (some p.peek,
        facing phrases p.advance (past ++ [p.passing])) := by
  rw [consumeIf, bind_apply, peek_facing, Option.bind_some,
    if_pos hKind]
  rfl

/- A token of another kind is left. -/
theorem consumeIf_of_ne
    (hKind : p.peek.kind ≠ kind) :
    consumeIf kind (facing phrases p past) =
      some (none, facing phrases p past) := by
  rw [consumeIf, bind_apply, peek_facing, Option.bind_some,
    if_neg hKind]
  rfl

/- A token that is expected is passed. -/
theorem expect_of_kind
    (hKind : p.peek.kind = kind) :
    expect kind (facing phrases p past) =
      some (.ok p.peek,
        facing phrases p.advance (past ++ [p.passing])) := by
  rw [expect, lift_bind_apply, consumeIf_of_kind hKind]
  rfl

/- A token that is not expected is left, with an error. -/
theorem expect_of_ne
    (hKind : p.peek.kind ≠ kind) :
    expect kind (facing phrases p past) =
      some (.error
          { expected := [kind]
            found := p.peek
            stack := phrases.reverse.map NonTerminal.name },
        facing phrases p past) := by
  rw [expect, lift_bind_apply, consumeIf_of_ne hKind]
  rfl

/- What is done in a phrase comes between start and end. -/
theorem within_facing
    (n : NonTerminal)
    (body : Attempt Unit) :
    within n body (facing phrases p past) =
      (body (facing (n :: phrases) p
        (past ++ [.opened n p.cursor]))).bind fun result =>
          leave n result.1 result.2 := by
  rw [within, bind_apply, enter_facing]
  rfl

end Descent

end IntDecl

------------------------------------------------------------
-- Agendas As Procedures
------------------------------------------------------------

namespace IntDecl

namespace Descent

/- The procedure for a goal. -/
def attempt : Goal → Attempt Unit
| .token kind => do
    let _ ← expect kind
| .phrase n => recognize n
| .moreTerms => recognizeMoreTerms
| .moreFactors => recognizeMoreFactors
| .close n => (leave n (.ok ()) : Procedure _)

/- An error on its way out of some phrases. -/
def unwind
    (e : SyntaxError) :
    List NonTerminal → Attempt Unit
| [] => throw e
| n :: phrases =>
    (do
      let _ ← leave n (.error e)
      unwind e phrases : Procedure _)

/-
  The goals of an agenda, one after the other. An error skips
  the goals behind it, except that it ends the phrases that
  they would have ended.
-/
def pursue : List Goal → Attempt Unit
| [] => pure ()
| goal :: goals =>
    (do
      match ← (attempt goal).run with
      | .ok () => pursue goals
      | .error e =>
          unwind e (Goal.openPhrases goals) : Procedure _)

/- What is left of an agenda, once its first part is done. -/
def resume
    (goals : List Goal) :
    Except SyntaxError Unit → Attempt Unit
| .ok () => pursue goals
| .error e => unwind e (Goal.openPhrases goals)

/- The first goal comes first. -/
theorem pursue_cons
    (goal : Goal)
    (goals : List Goal)
    (d : Descent) :
    pursue (goal :: goals) d =
      (attempt goal d).bind fun result =>
        resume goals result.1 result.2 := by
  rw [pursue]
  rfl

/- An error leaves inner phrases before outer ones. -/
theorem unwind_append
    (e : SyntaxError)
    (inner : List NonTerminal)
    (goals : List Goal)
    (d : Descent) :
    unwind e (inner ++ Goal.openPhrases goals) d =
      (unwind e inner d).bind fun result =>
        resume goals result.1 result.2 := by
  induction inner generalizing d with
  | nil =>
      rfl
  | cons n inner ih =>
      exact ih _

/- The phrases that two agendas end, one after the other. -/
theorem openPhrases_append
    (first second : List Goal) :
    Goal.openPhrases (first ++ second) =
      Goal.openPhrases first ++ Goal.openPhrases second :=
  List.filterMap_append

/- An agenda can be interrupted anywhere. -/
theorem pursue_append
    (first second : List Goal)
    (d : Descent) :
    pursue (first ++ second) d =
      (pursue first d).bind fun result =>
        resume second result.1 result.2 := by
  induction first generalizing d with
  | nil =>
      rfl
  | cons goal first ih =>
      rw [List.cons_append, pursue_cons, pursue_cons,
        Option.bind_assoc]
      apply bind_eq_of_verdict
      · intro done reached
        exact ih reached
      · intro e reached
        simp only [resume, openPhrases_append]
        exact unwind_append e _ second reached

/- A goal gives way to the agenda that it amounts to. -/
theorem pursue_of_attempt
    {goal : Goal}
    {goals new : List Goal}
    {d reached : Descent}
    (hGoal : attempt goal d = pursue new reached) :
    pursue (goal :: goals) d =
      pursue (new ++ goals) reached := by
  rw [pursue_cons, hGoal, pursue_append]

/- The end of a phrase sees how its parts went. -/
theorem pursue_concat_close
    (parts : List Goal)
    (n : NonTerminal)
    (d : Descent) :
    pursue (parts ++ [.close n]) d =
      (pursue parts d).bind fun result =>
        leave n result.1 result.2 := by
  rw [pursue_append]
  exact bind_eq_of_verdict
    (fun done reached => rfl) (fun e reached => rfl)

/- Goals that end no phrase are calls in sequence. -/
theorem pursue_eq_bind
    (goal : Goal)
    {goals : List Goal}
    (hOpen : Goal.openPhrases goals = []) :
    pursue (goal :: goals) =
      (do
        attempt goal
        pursue goals) := by
  funext d
  rw [pursue_cons, attempt_bind_apply]
  apply bind_eq_of_verdict
  · intro done reached
    rfl
  · intro e reached
    simp only [resume, hOpen]
    rfl

/- An agenda of one goal is the procedure for it. -/
theorem pursue_singleton
    (goal : Goal) :
    pursue [goal] = attempt goal := by
  rw [pursue_eq_bind goal rfl]
  exact bind_pure (attempt goal)

end Descent

end IntDecl

------------------------------------------------------------
-- Moves Of A Descent
------------------------------------------------------------

namespace IntDecl

namespace Descent

variable {phrases : List NonTerminal}
variable {p : Parser}
variable {past : List ParseEvent}
variable {goal : Goal}
variable {new : List Goal}

/- A phrase is the agenda of its parts and its end. -/
theorem within_eq_pursue
    {n : NonTerminal}
    {body : Attempt Unit}
    (parts : List Goal)
    {d : Descent}
    (hBody :
      body (facing (n :: phrases) p
        (past ++ [.opened n p.cursor])) = pursue parts d) :
    within n body (facing phrases p past) =
      pursue (parts ++ [.close n]) d := by
  rw [within_facing, hBody, pursue_concat_close]

/- A goal that gives way is an agenda at the same token. -/
theorem attempt_of_replace
    (goals : List Goal)
    (hMove : goal.move p.peek.kind = .replace new) :
    attempt goal
        (facing (Goal.openPhrases (goal :: goals)) p past) =
      pursue new
        (facing (Goal.openPhrases (new ++ goals)) p
          (past ++ goal.opening p.cursor)) := by
  rcases Goal.move_eq_replace hMove with
    ⟨n, rfl, rfl⟩ | ⟨rfl, hPlus, rfl⟩ |
    ⟨rfl, hMultiply, rfl⟩ | ⟨rfl, rfl⟩ | ⟨rfl, rfl⟩ |
    ⟨rfl, rfl⟩
  case inl =>
    exact leave_facing n (.ok ())
  case inr.inl =>
    rw [attempt, recognizeMoreTerms, lift_bind_apply,
      consumeIf_of_ne hPlus]
    simp only [Goal.opening, List.append_nil]
    rfl
  case inr.inr.inl =>
    rw [attempt, recognizeMoreFactors, lift_bind_apply,
      consumeIf_of_ne hMultiply]
    simp only [Goal.opening, List.append_nil]
    rfl
  case inr.inr.inr.inl =>
    refine within_eq_pursue [.token .intKeyword,
      .token .identifier, .token .assign,
      .phrase .expression, .token .semicolon] ?_
    repeat rw [pursue_eq_bind _ rfl]
    simp only [attempt, pursue, bind_assoc, pure_bind]
    rfl
  case inr.inr.inr.inr.inl =>
    rw [attempt, recognize, recognizeExpression_eq]
    refine within_eq_pursue [.phrase .term, .moreTerms] ?_
    rw [pursue_eq_bind _ rfl, pursue_singleton]
    rfl
  case inr.inr.inr.inr.inr =>
    rw [attempt, recognize, recognizeTerm_eq]
    refine within_eq_pursue
      [.phrase .factor, .moreFactors] ?_
    rw [pursue_eq_bind _ rfl, pursue_singleton]
    rfl

/- A goal that takes a token is an agenda behind it. -/
theorem attempt_of_pass
    (goals : List Goal)
    (hMove : goal.move p.peek.kind = .pass new) :
    attempt goal
        (facing (Goal.openPhrases (goal :: goals)) p past) =
      pursue new
        (facing (Goal.openPhrases (new ++ goals)) p.advance
          (past ++
            (goal.opening p.cursor ++ [p.passing]))) := by
  rcases Goal.move_eq_pass hMove with
    ⟨rfl, rfl⟩ | ⟨rfl, hPlus, rfl⟩ |
    ⟨rfl, hMultiply, rfl⟩ | ⟨rfl, hNumber, rfl⟩ |
    ⟨rfl, hGroup, rfl⟩
  case inl =>
    rw [attempt, attempt_bind_apply, expect_of_kind rfl]
    rfl
  case inr.inl =>
    rw [attempt, recognizeMoreTerms, lift_bind_apply,
      consumeIf_of_kind hPlus, pursue_eq_bind _ rfl,
      pursue_singleton]
    rfl
  case inr.inr.inl =>
    rw [attempt, recognizeMoreFactors, lift_bind_apply,
      consumeIf_of_kind hMultiply, pursue_eq_bind _ rfl,
      pursue_singleton]
    rfl
  case inr.inr.inr.inl =>
    rw [attempt, recognize, recognizeFactor_eq]
    refine within_eq_pursue [] ?_
    rw [lift_bind_apply, peek_facing, Option.bind_some,
      hNumber]
    simp only
    rw [lift_bind_apply, consume_facing,
      ← List.append_assoc]
    rfl
  case inr.inr.inr.inr =>
    rw [attempt, recognize, recognizeFactor_eq]
    refine within_eq_pursue
      [.phrase .expression, .token .rparen] ?_
    rw [lift_bind_apply, peek_facing, Option.bind_some,
      hGroup, pursue_eq_bind _ rfl, pursue_singleton]
    simp only
    rw [lift_bind_apply, consume_facing,
      ← List.append_assoc]
    rfl

/-
  A goal that rejects a token is an error, which takes the
  open phrases with it and leaves those of the goal itself.
-/
theorem attempt_of_reject
    (goals : List Goal)
    {expected : List TokenKind}
    (hMove : goal.move p.peek.kind = .reject expected new) :
    attempt goal
        (facing (Goal.openPhrases (goal :: goals)) p past) =
      unwind
        { expected := expected
          found := p.peek
          stack :=
            (Goal.openPhrases (new ++ goals)).reverse.map
              NonTerminal.name }
        (Goal.openPhrases new)
        (facing (Goal.openPhrases (new ++ goals)) p
          (past ++ goal.opening p.cursor)) := by
  rcases Goal.move_eq_reject hMove with
    ⟨kind, rfl, hKind, rfl, rfl⟩ |
    ⟨rfl, hNumber, hGroup, rfl, rfl⟩
  case inl =>
    rw [attempt, attempt_bind_apply, expect_of_ne hKind]
    simp only [Goal.opening, List.append_nil]
    rfl
  case inr =>
    rw [attempt, recognize, recognizeFactor_eq,
      within_facing, lift_bind_apply, peek_facing,
      Option.bind_some]
    -- The token fits neither of the first two branches.
    simp only
    rfl

/- An error leaves all open phrases. -/
theorem unwind_facing
    (e : SyntaxError) :
    unwind e phrases (facing phrases p past) =
      some (.error e, facing [] p
        (past ++ phrases.map fun n =>
          .closed n p.cursor false)) := by
  induction phrases generalizing past with
  | nil =>
      rw [unwind, List.map_nil, List.append_nil]
      rfl
  | cons n phrases ih =>
      rw [unwind, bind_apply, leave_facing,
        Option.bind_some, ih, List.map_cons,
        List.append_assoc]
      rfl

end Descent

end IntDecl

------------------------------------------------------------
-- Descent And Agenda
------------------------------------------------------------

namespace IntDecl

/- Whether recognition succeeded, or the error. -/
def Outcome.verdict (o : Outcome) : Except SyntaxError Unit :=
  match o.error? with
  | none => .ok ()
  | some e => .error e

namespace Descent

/-
  A descent through an agenda always ends. It does as the run
  of the agenda says and leaves an empty stack.
-/
theorem pursue_facing
    (goals : List Goal)
    (p : Parser)
    (past : List ParseEvent) :
    pursue goals (facing (Goal.openPhrases goals) p past) =
      some ((Parser.run goals p).verdict,
        facing [] (Parser.run goals p).parser
          (past ++ (Parser.run goals p).trace)) := by
  induction goals, p using Parser.run_induction
    generalizing past with
  | nil p =>
      rw [Parser.run, List.append_nil]
      rfl
  | replace goal goals p new hMove ih =>
      rw [pursue_of_attempt (attempt_of_replace goals hMove),
        ih, Parser.run_of_replace hMove, List.append_assoc]
      rfl
  | pass goal goals p new hMove ih =>
      rw [pursue_of_attempt (attempt_of_pass goals hMove),
        ih, Parser.run_of_pass hMove, List.append_assoc]
      rfl
  | reject goal goals p expected new hMove =>
      rw [pursue_cons, attempt_of_reject goals hMove,
        ← unwind_append, ← openPhrases_append,
        unwind_facing, Parser.run_of_reject hMove,
        List.append_assoc]
      rfl

/- The procedure for a request. -/
def answer : Parser.Request → Attempt Unit
| .recognize n => recognize n
| .expect kind => do
    let _ ← expect kind

/- A request is answered by descent as by its outcome. -/
theorem answer_eq
    (request : Parser.Request)
    (p : Parser)
    (past : List ParseEvent) :
    answer request ⟨p, [], past⟩ =
      some ((p.respond request).verdict,
        ⟨(p.respond request).parser, [],
          past ++ (p.respond request).trace⟩) := by
  have hGoal : answer request = attempt request.goal := by
    cases request with
    | recognize n =>
        rfl
    | expect kind =>
        rfl
  have hRun := pursue_facing [request.goal] p past
  rw [Parser.openPhrases_goal, pursue_singleton, ← hGoal,
    ← Parser.respond_eq_run] at hRun
  exact hRun

/-
  Recursive descent recognizes what the agenda does: it always
  returns, with the same verdict, at the same position and
  after the same events, and its stack is empty again.
-/
theorem recognize_eq
    (n : NonTerminal)
    (p : Parser)
    (past : List ParseEvent) :
    recognize n ⟨p, [], past⟩ =
      some ((p.recognize n).verdict,
        ⟨(p.recognize n).parser, [],
          past ++ (p.recognize n).trace⟩) :=
  answer_eq (.recognize n) p past

/- The procedure for some requests, one after the other. -/
def answerAll :
    List Parser.Request →
      Procedure (List (Except SyntaxError Unit))
| [] => return []
| request :: requests => do
    let verdict ← (answer request).run
    return verdict :: (← answerAll requests)

/- A session by descent is the session by outcomes. -/
theorem answerAll_eq
    (requests : List Parser.Request)
    (p : Parser)
    (past : List ParseEvent) :
    answerAll requests ⟨p, [], past⟩ =
      some ((p.respondAll requests).map Outcome.verdict,
        ⟨p.afterAll requests, [],
          past ++
            (p.respondAll requests).flatMap
              Outcome.trace⟩) := by
  induction requests generalizing p past with
  | nil =>
      rw [Parser.respondAll, List.flatMap_nil,
        List.append_nil]
      rfl
  | cons request requests ih =>
      rw [answerAll, bind_apply, ExceptT.run, answer_eq,
        Option.bind_some, bind_apply, ih,
        Parser.respondAll, List.flatMap_cons,
        ← List.append_assoc]
      rfl

end Descent

end IntDecl
