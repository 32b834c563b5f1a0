import IntDecl.Parser.Run

/-
  This file describes the run of an agenda by single moves.

  The first goal of an agenda and the kind of the next token
  decide what happens: the goal gives way to other goals, or
  it does so and the token is passed, or the token does not
  fit. A run is a chain of such moves.

  Key definitions include:
    * `Goal.Move`
    * `Goal.move`
    * `Goal.opening`
    * `Outcome.after`
    * `Parser.Leads`
    * `Parser.Rests`

  Key theorems include:
    * `Goal.move_eq_replace`
    * `Goal.move_eq_pass`
    * `Goal.move_eq_reject`
    * `Parser.run_cons`
    * `Parser.run_induction`
    * `Outcome.consumed_after`
    * `Parser.Leads.exists_run_eq`
    * `Parser.Leads.run_of_nil`
    * `Parser.Leads.error?_run`
    * `Parser.Leads.parser_run`
    * `Parser.exists_leads_of_error?_eq_none`
    * `Parser.exists_leads_of_error?_eq_some`
-/

------------------------------------------------------------
-- Moves
------------------------------------------------------------

namespace IntDecl

namespace Goal

/-
  What becomes of a goal before a token: other goals take its
  place, the token is passed and other goals take its place,
  or the token does not fit. In the last case the goals are
  those that are left to close the phrase of the goal.
-/
inductive Move where
| replace (goals : List Goal)
| pass (goals : List Goal)
| reject (expected : List TokenKind) (goals : List Goal)
deriving DecidableEq, Repr

/- The move of a goal before a token of a kind. -/
def move : Goal → TokenKind → Move
| .token kind, next =>
    if next = kind then .pass [] else .reject [kind] []
| .close _, _ => .replace []
| .moreTerms, next =>
    if next = .plus then .pass [.phrase .term, .moreTerms]
    else .replace []
| .moreFactors, next =>
    if next = .multiply then
      .pass [.phrase .factor, .moreFactors]
    else .replace []
| .phrase .program, _ =>
    .replace [.token .intKeyword, .token .identifier,
      .token .assign, .phrase .expression,
      .token .semicolon, .close .program]
| .phrase .expression, _ =>
    .replace [.phrase .term, .moreTerms, .close .expression]
| .phrase .term, _ =>
    .replace [.phrase .factor, .moreFactors, .close .term]
| .phrase .factor, next =>
    if next = .number then .pass [.close .factor]
    else if next = .lparen then
      .pass [.phrase .expression, .token .rparen,
        .close .factor]
    else .reject [.number, .lparen] [.close .factor]

/- What is reported of a goal before its move. -/
def opening (cursor : Nat) : Goal → List ParseEvent
| .phrase n => [.opened n cursor]
| .close n => [.closed n cursor true]
| _ => []

/- The goals that give way without a token, and to what. -/
theorem move_eq_replace
    {goal : Goal}
    {next : TokenKind}
    {new : List Goal}
    (hMove : goal.move next = .replace new) :
    (∃ n, goal = .close n ∧ new = []) ∨
      (goal = .moreTerms ∧ next ≠ .plus ∧ new = []) ∨
      (goal = .moreFactors ∧ next ≠ .multiply ∧ new = []) ∨
      (goal = .phrase .program ∧
        new = [.token .intKeyword, .token .identifier,
          .token .assign, .phrase .expression,
          .token .semicolon, .close .program]) ∨
      (goal = .phrase .expression ∧
        new = [.phrase .term, .moreTerms,
          .close .expression]) ∨
      (goal = .phrase .term ∧
        new = [.phrase .factor, .moreFactors,
          .close .term]) := by
  cases goal with
  | token kind =>
      by_cases hKind : next = kind <;>
        simp [move, hKind] at hMove
  | close n =>
      simpa [move, eq_comm] using hMove
  | moreTerms =>
      by_cases hPlus : next = .plus
      · simp [move, hPlus] at hMove
      · simpa [move, hPlus, eq_comm] using hMove
  | moreFactors =>
      by_cases hMultiply : next = .multiply
      · simp [move, hMultiply] at hMove
      · simpa [move, hMultiply, eq_comm] using hMove
  | phrase n =>
      cases n with
      | factor =>
          by_cases hNumber : next = .number
          · simp [move, hNumber] at hMove
          · by_cases hGroup : next = .lparen <;>
              simp [move, hNumber, hGroup] at hMove
      | program =>
          simpa [move, eq_comm] using hMove
      | expression =>
          simpa [move, eq_comm] using hMove
      | term =>
          simpa [move, eq_comm] using hMove

/- The goals that take a token, and what follows it. -/
theorem move_eq_pass
    {goal : Goal}
    {next : TokenKind}
    {new : List Goal}
    (hMove : goal.move next = .pass new) :
    (goal = .token next ∧ new = []) ∨
      (goal = .moreTerms ∧ next = .plus ∧
        new = [.phrase .term, .moreTerms]) ∨
      (goal = .moreFactors ∧ next = .multiply ∧
        new = [.phrase .factor, .moreFactors]) ∨
      (goal = .phrase .factor ∧ next = .number ∧
        new = [.close .factor]) ∨
      (goal = .phrase .factor ∧ next = .lparen ∧
        new = [.phrase .expression, .token .rparen,
          .close .factor]) := by
  cases goal with
  | token kind =>
      by_cases hKind : next = kind
      · simpa [move, hKind, eq_comm] using hMove
      · simp [move, hKind] at hMove
  | close n =>
      simp [move] at hMove
  | moreTerms =>
      by_cases hPlus : next = .plus
      · simpa [move, hPlus, eq_comm] using hMove
      · simp [move, hPlus] at hMove
  | moreFactors =>
      by_cases hMultiply : next = .multiply
      · simpa [move, hMultiply, eq_comm] using hMove
      · simp [move, hMultiply] at hMove
  | phrase n =>
      cases n with
      | factor =>
          by_cases hNumber : next = .number
          · simpa [move, hNumber, eq_comm] using hMove
          · by_cases hGroup : next = .lparen
            · simpa [move, hGroup, eq_comm] using hMove
            · simp [move, hNumber, hGroup] at hMove
      | program =>
          simp [move] at hMove
      | expression =>
          simp [move] at hMove
      | term =>
          simp [move] at hMove

/- The goals that reject a token, and what they expect. -/
theorem move_eq_reject
    {goal : Goal}
    {next : TokenKind}
    {expected : List TokenKind}
    {new : List Goal}
    (hMove : goal.move next = .reject expected new) :
    (∃ kind, goal = .token kind ∧ next ≠ kind ∧
        expected = [kind] ∧ new = []) ∨
      (goal = .phrase .factor ∧ next ≠ .number ∧
        next ≠ .lparen ∧ expected = [.number, .lparen] ∧
        new = [.close .factor]) := by
  cases goal with
  | token kind =>
      by_cases hKind : next = kind
      · simp [move, hKind] at hMove
      · simpa [move, hKind, eq_comm] using hMove
  | close n =>
      simp [move] at hMove
  | moreTerms =>
      by_cases hPlus : next = .plus <;>
        simp [move, hPlus] at hMove
  | moreFactors =>
      by_cases hMultiply : next = .multiply <;>
        simp [move, hMultiply] at hMove
  | phrase n =>
      cases n with
      | factor =>
          by_cases hNumber : next = .number
          · simp [move, hNumber] at hMove
          · by_cases hGroup : next = .lparen
            · simp [move, hGroup] at hMove
            · simpa [move, hNumber, hGroup, eq_comm]
                using hMove
      | program =>
          simp [move] at hMove
      | expression =>
          simp [move] at hMove
      | term =>
          simp [move] at hMove

end Goal

end IntDecl

------------------------------------------------------------
-- Runs By Moves
------------------------------------------------------------

namespace IntDecl

namespace Outcome

/- An outcome with earlier events. -/
def after
    (o : Outcome)
    (events : List ParseEvent) :
    Outcome :=
  { o with trace := events ++ o.trace }

@[simp] theorem after_nil
    (o : Outcome) :
    o.after [] = o := rfl

@[simp] theorem after_after
    (o : Outcome)
    (first second : List ParseEvent) :
    (o.after second).after first =
      o.after (first ++ second) := by
  simp [after]

@[simp] theorem parser_after
    (o : Outcome)
    (events : List ParseEvent) :
    (o.after events).parser = o.parser := rfl

@[simp] theorem error?_after
    (o : Outcome)
    (events : List ParseEvent) :
    (o.after events).error? = o.error? := rfl

end Outcome

namespace Parser

/- The first goal of an agenda makes its move, and so on. -/
theorem run_cons
    (goal : Goal)
    (goals : List Goal)
    (p : Parser) :
    run (goal :: goals) p =
      (match goal.move p.peek.kind with
        | .replace new => run (new ++ goals) p
        | .pass new =>
            (run (new ++ goals) p.advance).after [p.passing]
        | .reject expected new =>
            failure expected (new ++ goals) p).after
        (goal.opening p.cursor) := by
  cases goal with
  | token kind =>
      rw [run, Goal.move]
      by_cases hKind : p.peek.kind = kind
      · simp [hKind, Goal.opening, Outcome.preceded,
          Outcome.after]
      · simp [hKind, Goal.opening]
  | close n =>
      rw [run]
      simp [Goal.move, Goal.opening, Outcome.preceded,
        Outcome.after]
  | moreTerms =>
      rw [run, Goal.move]
      by_cases hPlus : p.peek.kind = .plus
      · simp [hPlus, Goal.opening, Outcome.preceded,
          Outcome.after]
      · simp [hPlus, Goal.opening]
  | moreFactors =>
      rw [run, Goal.move]
      by_cases hMultiply : p.peek.kind = .multiply
      · simp [hMultiply, Goal.opening, Outcome.preceded,
          Outcome.after]
      · simp [hMultiply, Goal.opening]
  | phrase n =>
      cases n with
      | program =>
          rw [run]
          simp [Goal.move, Goal.opening, Outcome.preceded,
            Outcome.after]
      | expression =>
          rw [run]
          simp [Goal.move, Goal.opening, Outcome.preceded,
            Outcome.after]
      | term =>
          rw [run]
          simp [Goal.move, Goal.opening, Outcome.preceded,
            Outcome.after]
      | factor =>
          rw [run, Goal.move]
          by_cases hNumber : p.peek.kind = .number
          · simp [hNumber, Goal.opening, Outcome.preceded,
              Outcome.after]
          · by_cases hGroup : p.peek.kind = .lparen
            · simp [hGroup, Goal.opening, Outcome.preceded,
                Outcome.after]
            · simp [hNumber, hGroup, Goal.opening,
                Outcome.preceded, Outcome.after]

/- A goal that gives way leaves the run to other goals. -/
theorem run_of_replace
    {goal : Goal}
    {goals new : List Goal}
    {p : Parser}
    (hMove : goal.move p.peek.kind = .replace new) :
    run (goal :: goals) p =
      (run (new ++ goals) p).after
        (goal.opening p.cursor) := by
  rw [run_cons, hMove]

/- A goal that takes a token leaves the run behind it. -/
theorem run_of_pass
    {goal : Goal}
    {goals new : List Goal}
    {p : Parser}
    (hMove : goal.move p.peek.kind = .pass new) :
    run (goal :: goals) p =
      (run (new ++ goals) p.advance).after
        (goal.opening p.cursor ++ [p.passing]) := by
  rw [run_cons, hMove]
  exact Outcome.after_after _ _ _

/- A goal that rejects a token ends the run. -/
theorem run_of_reject
    {goal : Goal}
    {goals new : List Goal}
    {p : Parser}
    {expected : List TokenKind}
    (hMove : goal.move p.peek.kind = .reject expected new) :
    run (goal :: goals) p =
      (failure expected (new ++ goals) p).after
        (goal.opening p.cursor) := by
  rw [run_cons, hMove]

/-
  What every agenda inherits from the agenda after its first
  move holds of all agendas at all positions.
-/
theorem run_induction
    {motive : List Goal → Parser → Prop}
    (nil : ∀ p, motive [] p)
    (replace :
      ∀ goal goals p new,
        goal.move p.peek.kind = .replace new →
        motive (new ++ goals) p →
        motive (goal :: goals) p)
    (pass :
      ∀ goal goals p new,
        goal.move p.peek.kind = .pass new →
        motive (new ++ goals) p.advance →
        motive (goal :: goals) p)
    (reject :
      ∀ goal goals p expected new,
        goal.move p.peek.kind = .reject expected new →
        motive (goal :: goals) p)
    (goals : List Goal)
    (p : Parser) :
    motive goals p := by
  fun_induction run goals p with
  | case1 p =>
      exact nil p
  | case2 n goals p ih =>
      exact replace _ _ _ _ rfl ih
  | case3 goals p ih =>
      exact pass _ _ _ [] (by simp [Goal.move]) ih
  | case4 kind goals p hKind =>
      exact reject _ _ _ [kind] [] (by simp [Goal.move, hKind])
  | case5 goals p hPlus _ ih =>
      exact pass _ _ _ [.phrase .term, .moreTerms]
        (by simp [Goal.move, hPlus]) ih
  | case6 goals p hPlus ih =>
      exact replace _ _ _ [] (by simp [Goal.move, hPlus]) ih
  | case7 goals p hMultiply _ ih =>
      exact pass _ _ _ [.phrase .factor, .moreFactors]
        (by simp [Goal.move, hMultiply]) ih
  | case8 goals p hMultiply ih =>
      exact replace _ _ _ []
        (by simp [Goal.move, hMultiply]) ih
  | case9 goals p ih =>
      exact replace _ _ _ _ rfl ih
  | case10 goals p ih =>
      exact replace _ _ _ _ rfl ih
  | case11 goals p ih =>
      exact replace _ _ _ _ rfl ih
  | case12 goals p ihNumber ihGroup =>
      by_cases hNumber : p.peek.kind = .number
      · exact pass _ _ _ [.close .factor]
          (by simp [Goal.move, hNumber]) (ihNumber hNumber)
      · by_cases hGroup : p.peek.kind = .lparen
        · exact pass _ _ _ [.phrase .expression,
            .token .rparen, .close .factor]
            (by simp [Goal.move, hGroup]) (ihGroup hGroup)
        · exact reject _ _ _ [.number, .lparen]
            [.close .factor]
            (by simp [Goal.move, hNumber, hGroup])

end Parser

end IntDecl

------------------------------------------------------------
-- Tokens Of A Run
------------------------------------------------------------

namespace IntDecl

/- The token that an event reports as passed. -/
def ParseEvent.token? : ParseEvent → Option Token
| .consumed token _ => some token
| _ => none

/- No token is passed where phrases end. -/
theorem ParseEvent.filterMap_token?_closed
    (phrases : List NonTerminal)
    (cursor : Nat)
    (ok : Bool) :
    (phrases.map fun n =>
        closed n cursor ok).filterMap token? =
      [] := by
  rw [List.filterMap_eq_nil_iff]
  intro event hMem
  rcases List.mem_map.mp hMem with ⟨n, _, rfl⟩
  rfl

namespace Goal

/- No token is passed before the move of a goal. -/
theorem filterMap_token?_opening
    (goal : Goal)
    (cursor : Nat) :
    (goal.opening cursor).filterMap ParseEvent.token? =
      [] := by
  cases goal <;> rfl

end Goal

namespace Outcome

/- The tokens of earlier events come first. -/
theorem consumed_after
    (o : Outcome)
    (events : List ParseEvent) :
    (o.after events).consumed =
      events.filterMap ParseEvent.token? ++ o.consumed :=
  List.filterMap_append

end Outcome

namespace Parser

/- A goal that gives way leaves all tokens to other goals. -/
theorem consumed_run_of_replace
    {goal : Goal}
    {goals new : List Goal}
    {p : Parser}
    (hMove : goal.move p.peek.kind = .replace new) :
    (run (goal :: goals) p).consumed =
      (run (new ++ goals) p).consumed := by
  rw [run_of_replace hMove, Outcome.consumed_after,
    Goal.filterMap_token?_opening, List.nil_append]

/- A goal that takes a token passes it first. -/
theorem consumed_run_of_pass
    {goal : Goal}
    {goals new : List Goal}
    {p : Parser}
    (hMove : goal.move p.peek.kind = .pass new) :
    (run (goal :: goals) p).consumed =
      p.peek :: (run (new ++ goals) p.advance).consumed := by
  rw [run_of_pass hMove, Outcome.consumed_after,
    List.filterMap_append, Goal.filterMap_token?_opening]
  rfl

/- A goal that rejects a token passes none. -/
theorem consumed_run_of_reject
    {goal : Goal}
    {goals new : List Goal}
    {p : Parser}
    {expected : List TokenKind}
    (hMove : goal.move p.peek.kind = .reject expected new) :
    (run (goal :: goals) p).consumed = [] := by
  rw [run_of_reject hMove, Outcome.consumed_after,
    Goal.filterMap_token?_opening, List.nil_append]
  exact ParseEvent.filterMap_token?_closed _ _ _

end Parser

end IntDecl

------------------------------------------------------------
-- Chains Of Moves
------------------------------------------------------------

namespace IntDecl

namespace Parser

/-
  Moves lead from an agenda at one position to an agenda at
  another. The kinds of the tokens that are passed on the way
  are kept.
-/
inductive Leads :
    List Goal → Parser → List TokenKind →
      List Goal → Parser → Prop where
| refl
    {goals : List Goal}
    {p : Parser} :
    Leads goals p [] goals p
| replace
    {goal : Goal}
    {goals new last : List Goal}
    {p q : Parser}
    {used : List TokenKind}
    (hMove : goal.move p.peek.kind = .replace new)
    (hLeads : Leads (new ++ goals) p used last q) :
    Leads (goal :: goals) p used last q
| pass
    {goal : Goal}
    {goals new last : List Goal}
    {p q : Parser}
    {used : List TokenKind}
    (hMove : goal.move p.peek.kind = .pass new)
    (hLeads : Leads (new ++ goals) p.advance used last q) :
    Leads (goal :: goals) p (p.peek.kind :: used) last q

/-
  An agenda comes to rest when no goal is left or when its
  first goal rejects the next token.
-/
def Rests (p : Parser) : List Goal → Prop
| [] => True
| goal :: _ =>
    ∃ expected new,
      goal.move p.peek.kind = .reject expected new

/- Chains of moves are put together. -/
theorem Leads.trans
    {goals middle last : List Goal}
    {p q r : Parser}
    {used more : List TokenKind}
    (hFirst : Leads goals p used middle q)
    (hSecond : Leads middle q more last r) :
    Leads goals p (used ++ more) last r := by
  induction hFirst with
  | refl =>
      exact hSecond
  | replace hMove _ ih =>
      exact .replace hMove (ih hSecond)
  | pass hMove _ ih =>
      exact .pass hMove (ih hSecond)

/- A run goes on as the agenda that its moves lead to. -/
theorem Leads.exists_run_eq
    {goals last : List Goal}
    {p q : Parser}
    {used : List TokenKind}
    (hLeads : Leads goals p used last q) :
    ∃ events, run goals p = (run last q).after events := by
  induction hLeads with
  | refl =>
      exact ⟨[], rfl⟩
  | replace hMove _ ih =>
      rcases ih with ⟨events, hRun⟩
      rw [run_of_replace hMove, hRun]
      exact ⟨_, Outcome.after_after _ _ _⟩
  | pass hMove _ ih =>
      rcases ih with ⟨events, hRun⟩
      rw [run_of_pass hMove, hRun]
      exact ⟨_, Outcome.after_after _ _ _⟩

/- A run succeeds where its moves lead to no further goal. -/
theorem Leads.run_of_nil
    {goals : List Goal}
    {p q : Parser}
    {used : List TokenKind}
    (hLeads : Leads goals p used [] q) :
    (run goals p).error? = none ∧
      (run goals p).parser = q := by
  rcases hLeads.exists_run_eq with ⟨events, hRun⟩
  rw [hRun, run]
  exact ⟨rfl, rfl⟩

/- A run fails where its moves lead to a rejection. -/
theorem Leads.error?_run
    {goals rest new : List Goal}
    {goal : Goal}
    {p q : Parser}
    {used expected : List TokenKind}
    (hLeads : Leads goals p used (goal :: rest) q)
    (hMove : goal.move q.peek.kind = .reject expected new) :
    (run goals p).error? =
      (failure expected (new ++ rest) q).error? := by
  rcases hLeads.exists_run_eq with ⟨events, hRun⟩
  rw [hRun, run_of_reject hMove]
  rfl

/- An agenda that has come to rest stays where it is. -/
theorem Rests.parser_run
    {p : Parser}
    {goals : List Goal}
    (hRests : Rests p goals) :
    (run goals p).parser = p := by
  cases goals with
  | nil =>
      rw [run]
  | cons goal goals =>
      rcases hRests with ⟨expected, new, hMove⟩
      rw [run_of_reject hMove]
      rfl

/- A run ends where its moves come to rest. -/
theorem Leads.parser_run
    {goals last : List Goal}
    {p q : Parser}
    {used : List TokenKind}
    (hLeads : Leads goals p used last q)
    (hRests : Rests q last) :
    (run goals p).parser = q := by
  rcases hLeads.exists_run_eq with ⟨events, hRun⟩
  rw [hRun, Outcome.parser_after, hRests.parser_run]

/- Every agenda comes to rest. -/
theorem exists_leads_rests
    (goals : List Goal)
    (p : Parser) :
    ∃ used last q,
      Leads goals p used last q ∧ Rests q last := by
  induction goals, p using run_induction with
  | nil p =>
      exact ⟨[], [], p, .refl, trivial⟩
  | replace goal goals p new hMove ih =>
      rcases ih with ⟨used, last, q, hLeads, hRests⟩
      exact ⟨used, last, q, .replace hMove hLeads, hRests⟩
  | pass goal goals p new hMove ih =>
      rcases ih with ⟨used, last, q, hLeads, hRests⟩
      exact ⟨_, last, q, .pass hMove hLeads, hRests⟩
  | reject goal goals p expected new hMove =>
      exact ⟨[], goal :: goals, p, .refl, expected, new, hMove⟩

/- A run without error leads to the empty agenda. -/
theorem exists_leads_of_error?_eq_none
    {goals : List Goal}
    {p : Parser}
    (hRun : (run goals p).error? = none) :
    ∃ used, Leads goals p used [] (run goals p).parser := by
  rcases exists_leads_rests goals p with
    ⟨used, last, q, hLeads, hRests⟩
  rcases hLeads.exists_run_eq with ⟨events, hEq⟩
  cases last with
  | nil =>
      rw [hEq, run]
      exact ⟨used, hLeads⟩
  | cons goal rest =>
      rcases hRests with ⟨expected, new, hMove⟩
      rw [hEq, run_of_reject hMove] at hRun
      simp [failure] at hRun

/- A run with an error leads to a goal that rejects a token. -/
theorem exists_leads_of_error?_eq_some
    {goals : List Goal}
    {p : Parser}
    {e : SyntaxError}
    (hRun : (run goals p).error? = some e) :
    ∃ used goal rest new,
      Leads goals p used (goal :: rest)
          (run goals p).parser ∧
        goal.move (run goals p).parser.peek.kind =
          .reject e.expected new ∧
        e.found = (run goals p).parser.peek := by
  rcases exists_leads_rests goals p with
    ⟨used, last, q, hLeads, hRests⟩
  rcases hLeads.exists_run_eq with ⟨events, hEq⟩
  cases last with
  | nil =>
      rw [hEq, run] at hRun
      simp at hRun
  | cons goal rest =>
      rcases hRests with ⟨expected, new, hMove⟩
      rw [hEq, run_of_reject hMove] at hRun ⊢
      simp only [Outcome.error?_after, failure,
        Option.some.injEq] at hRun
      subst hRun
      exact ⟨used, goal, rest, new, hLeads, hMove, rfl⟩

end Parser

end IntDecl
