import IntDecl.Proofs.Session

/-
  This file follows the phrases that are open while a parser
  works, and states what every request leaves in order.

  A phrase is open from the event of its beginning to that of
  its end. Phrases end in the reverse of the order in which
  they began, and when a token does not fit, all of them end
  there. So none is open between two requests of a session,
  and an error reports phrases of its own request only.

  Key definitions include:
    * `ParseEvent.openAfter?`
    * `Parser.Orderly`

  Key theorems include:
    * `Goal.openAfter?_opening`
    * `Parser.Leads.exists_events`
    * `Parser.openAfter?_run`
    * `Parser.exists_trace_of_error?`
    * `Parser.orderly_before`
    * `Parser.openAfter?_respondAll`
    * `Parser.orderly_afterAll`
-/

------------------------------------------------------------
-- Open Phrases
------------------------------------------------------------

namespace IntDecl

namespace ParseEvent

/-
  The phrases that are open after an event, innermost first.
  Only the innermost phrase can end.
-/
def update? :
    List NonTerminal → ParseEvent → Option (List NonTerminal)
| phrases, .opened n _ => some (n :: phrases)
| phrases, .consumed _ _ => some phrases
| [], .closed _ _ _ => none
| innermost :: outer, .closed n _ _ =>
    if innermost = n then some outer else none

/- The innermost phrase can end. -/
theorem update?_closed
    (n : NonTerminal)
    (outer : List NonTerminal)
    (cursor : Nat)
    (ok : Bool) :
    update? (n :: outer) (.closed n cursor ok) =
      some outer :=
  if_pos rfl

/- The phrases that are open after some events. -/
def openAfter? :
    List NonTerminal → List ParseEvent →
      Option (List NonTerminal)
| phrases, [] => some phrases
| phrases, event :: events =>
    (update? phrases event).bind fun next =>
      openAfter? next events

@[simp] theorem openAfter?_nil
    (phrases : List NonTerminal) :
    openAfter? phrases [] = some phrases := rfl

@[simp] theorem openAfter?_cons
    (phrases : List NonTerminal)
    (event : ParseEvent)
    (events : List ParseEvent) :
    openAfter? phrases (event :: events) =
      (update? phrases event).bind fun next =>
        openAfter? next events := rfl

/- Events are followed one part after the other. -/
theorem openAfter?_append
    (phrases : List NonTerminal)
    (first second : List ParseEvent) :
    openAfter? phrases (first ++ second) =
      (openAfter? phrases first).bind fun next =>
        openAfter? next second := by
  induction first generalizing phrases with
  | nil =>
      rfl
  | cons event events ih =>
      rw [List.cons_append, openAfter?_cons, openAfter?_cons]
      cases update? phrases event with
      | none =>
          rfl
      | some next =>
          exact ih next

/- All open phrases can end, from the innermost outwards. -/
theorem openAfter?_closed
    (phrases : List NonTerminal)
    (cursor : Nat)
    (ok : Bool) :
    openAfter? phrases
        (phrases.map fun n => .closed n cursor ok) =
      some [] := by
  induction phrases with
  | nil =>
      rfl
  | cons n phrases ih =>
      rw [List.map_cons, openAfter?_cons, update?_closed]
      exact ih

end ParseEvent

namespace Goal

/- The goals of a move, whichever it is. -/
def Move.goals : Move → List Goal
| .replace new => new
| .pass new => new
| .reject _ new => new

/-
  What is reported of a goal before its move turns the phrases
  that its agenda would end into those that the agenda after
  the move would end.
-/
theorem openAfter?_opening
    (goal : Goal)
    (goals : List Goal)
    (next : TokenKind)
    (cursor : Nat) :
    ParseEvent.openAfter? (openPhrases (goal :: goals))
        (goal.opening cursor) =
      some (openPhrases
        ((goal.move next).goals ++ goals)) := by
  cases goal with
  | token kind =>
      rw [move]
      split <;> rfl
  | close n =>
      have hOpen :
          openPhrases (.close n :: goals) =
            n :: openPhrases goals := rfl
      rw [hOpen, opening, ParseEvent.openAfter?_cons,
        ParseEvent.update?_closed]
      rfl
  | moreTerms =>
      rw [move]
      split <;> rfl
  | moreFactors =>
      rw [move]
      split <;> rfl
  | phrase n =>
      cases n with
      | program | expression | term =>
          rfl
      | factor =>
          rw [move]
          split
          · rfl
          · split <;> rfl

end Goal

end IntDecl

------------------------------------------------------------
-- Runs
------------------------------------------------------------

namespace IntDecl

namespace Parser

/-
  The events of a chain of moves turn the phrases that the
  first agenda would end into those that the last one would.
-/
theorem Leads.exists_events
    {goals last : List Goal}
    {p q : Parser}
    {used : List TokenKind}
    (hLeads : Leads goals p used last q) :
    ∃ events,
      run goals p = (run last q).after events ∧
        ParseEvent.openAfter? (Goal.openPhrases goals)
            events =
          some (Goal.openPhrases last) := by
  -- What a move reports leads from its agenda to the next one,
  -- the token that it may pass opens and ends nothing.
  induction hLeads with
  | refl =>
      exact ⟨[], rfl, rfl⟩
  | @replace goal goals new last p q used hMove _ ih =>
      rcases ih with ⟨events, hRun, hOpen⟩
      have hOpening :=
        goal.openAfter?_opening goals p.peek.kind p.cursor
      rw [hMove] at hOpening
      refine ⟨goal.opening p.cursor ++ events, ?_, ?_⟩
      · rw [run_of_replace hMove, hRun, Outcome.after_after]
      · rw [ParseEvent.openAfter?_append, hOpening]
        exact hOpen
  | @pass goal goals new last p q used hMove _ ih =>
      rcases ih with ⟨events, hRun, hOpen⟩
      have hOpening :=
        goal.openAfter?_opening goals p.peek.kind p.cursor
      rw [hMove] at hOpening
      refine
        ⟨goal.opening p.cursor ++ [p.passing] ++ events,
          ?_, ?_⟩
      · rw [run_of_pass hMove, hRun, Outcome.after_after]
      · rw [ParseEvent.openAfter?_append,
          ParseEvent.openAfter?_append, hOpening]
        exact hOpen

/-
  A token that is rejected ends all phrases that are open, and
  these are the ones that the error reports.
-/
theorem exists_trace_of_reject
    {goal : Goal}
    {new : List Goal}
    {p : Parser}
    {expected : List TokenKind}
    (goals : List Goal)
    (hMove : goal.move p.peek.kind = .reject expected new) :
    ∃ events phrases,
      (run (goal :: goals) p).trace =
          events ++ List.map
            (fun n => .closed n p.cursor false) phrases ∧
        ParseEvent.openAfter?
            (Goal.openPhrases (goal :: goals)) events =
          some phrases ∧
        ∀ e ∈ (run (goal :: goals) p).error?,
          e.stack = phrases.reverse.map NonTerminal.name := by
  have hOpening :=
    goal.openAfter?_opening goals p.peek.kind p.cursor
  rw [hMove] at hOpening
  rw [run_of_reject hMove]
  refine ⟨_, _, rfl, hOpening, ?_⟩
  intro e hError
  cases hError
  rfl

/-
  A run ends the phrases of its agenda, those that it begins,
  and no others.
-/
theorem openAfter?_run
    (goals : List Goal)
    (p : Parser) :
    ParseEvent.openAfter? (Goal.openPhrases goals)
        (run goals p).trace =
      some [] := by
  rcases exists_leads_rests goals p with
    ⟨used, last, q, hLeads, hRests⟩
  rcases hLeads.exists_events with ⟨events, hRun, hOpen⟩
  rw [hRun, Outcome.after, ParseEvent.openAfter?_append,
    hOpen, Option.bind_some]
  cases last with
  | nil =>
      rw [run]
      rfl
  | cons goal rest =>
      rcases hRests with ⟨expected, new, hMove⟩
      rcases exists_trace_of_reject rest hMove with
        ⟨before, phrases, hTrace, hBefore, _⟩
      rw [hTrace, ParseEvent.openAfter?_append, hBefore]
      exact ParseEvent.openAfter?_closed phrases _ _

/-
  An error reports the phrases that are open where it occurs,
  outermost first, and what follows is that they end there
  without success.
-/
theorem exists_trace_of_error?
    {goals : List Goal}
    {p : Parser}
    {e : SyntaxError}
    (hError : (run goals p).error? = some e) :
    ∃ events phrases,
      (run goals p).trace =
          events ++ List.map
            (fun n =>
              .closed n (run goals p).parser.cursor false)
            phrases ∧
        ParseEvent.openAfter? (Goal.openPhrases goals)
            events =
          some phrases ∧
        e.stack = phrases.reverse.map NonTerminal.name := by
  rcases exists_leads_rests goals p with
    ⟨used, last, q, hLeads, hRests⟩
  rcases hLeads.exists_events with ⟨events, hRun, hOpen⟩
  rw [hLeads.parser_run hRests]
  rw [hRun] at hError ⊢
  cases last with
  | nil =>
      rw [run] at hError
      cases hError
  | cons goal rest =>
      rcases hRests with ⟨expected, new, hMove⟩
      rcases exists_trace_of_reject rest hMove with
        ⟨before, phrases, hTrace, hBefore, hStack⟩
      refine
        ⟨events ++ before, phrases, ?_, ?_, hStack e hError⟩
      · rw [Outcome.after, hTrace, List.append_assoc]
      · rw [ParseEvent.openAfter?_append, hOpen]
        exact hBefore

end Parser

end IntDecl

------------------------------------------------------------
-- Single Tokens
------------------------------------------------------------

namespace IntDecl

namespace Parser

/- The end mark is seen at the last position only. -/
theorem kind_peek_before_iff
    {ts : TokenSequence}
    {cursor : Nat}
    (hCursor : cursor ≤ ts.body.length) :
    (before ts cursor).peek.kind = .endOfInput ↔
      cursor = ts.body.length := by
  constructor
  · intro hKind
    apply Nat.le_antisymm hCursor
    apply Nat.le_of_not_lt
    intro hBody
    apply ts.unmarked ts.body[cursor] (List.getElem_mem hBody)
    rw [peek, before, List.drop_eq_getElem_cons hBody] at hKind
    exact hKind
  · intro hEnd
    rw [hEnd, peek, before, List.drop_length]
    rfl

/-
  A request for a token passes it exactly if it is of the kind
  that was asked for and no end mark.
-/
theorem cursor_expect_before
    {ts : TokenSequence}
    {cursor : Nat}
    (hCursor : cursor ≤ ts.body.length)
    (kind : TokenKind) :
    ((before ts cursor).expect kind).parser.cursor =
      if ((before ts cursor).expect kind).error? = none ∧
          kind ≠ .endOfInput then
        cursor + 1
      else
        cursor := by
  have hEnd := kind_peek_before_iff hCursor
  rw [expect, run]
  by_cases hKind : (before ts cursor).peek.kind = kind
  · rw [if_pos hKind, run]
    rw [hKind] at hEnd
    by_cases hMarker : kind = .endOfInput
    · rw [if_neg (fun hBoth => hBoth.2 hMarker),
        hEnd.mp hMarker, advance_before_length]
      rfl
    · have hBody : cursor < ts.body.length :=
        Nat.lt_of_le_of_ne hCursor
          (fun hLast => hMarker (hEnd.mpr hLast))
      rw [if_pos ⟨rfl, hMarker⟩, advance_before hBody]
      rfl
  · rw [if_neg hKind, if_neg]
    · rfl
    · intro hBoth
      cases hBoth.1

end Parser

end IntDecl

------------------------------------------------------------
-- Requests In A Session
------------------------------------------------------------

namespace IntDecl

namespace Parser

/-
  What holds of a request that is made at a position of a
  sequence. The position does not go back and stays within the
  sequence, and so do all positions on the way, at which the
  tokens of the sequence are seen. All phrases that begin end
  again. An error is found at a token of no expected kind and
  reports the phrases that are open there. One token is passed
  if it is what was asked for, unless it is the end mark.
-/
structure Orderly
    (ts : TokenSequence)
    (p : Parser)
    (request : Request) : Prop where
  onward : p.cursor ≤ (p.respond request).parser.cursor
  within : (p.respond request).parser.cursor < ts.size
  seen :
    ∀ used goals q, Leads [request.goal] p used goals q →
      q.cursor < ts.size ∧ ts.tokens[q.cursor]? = some q.peek
  unwound :
    ParseEvent.openAfter? [] (p.respond request).trace =
      some []
  rejected :
    ∀ e, (p.respond request).error? = some e →
      ts.tokens[(p.respond request).parser.cursor]? =
          some e.found ∧
        e.found.kind ∉ e.expected
  reported :
    ∀ e, (p.respond request).error? = some e →
      ∃ events phrases,
        (p.respond request).trace =
            events ++ List.map
              (fun n =>
                .closed n
                  (p.respond request).parser.cursor false)
              phrases ∧
          ParseEvent.openAfter? [] events = some phrases ∧
          e.stack = phrases.reverse.map NonTerminal.name
  refused :
    ∀ kind, request = .expect kind →
      (p.respond request).error? ≠ none →
        (p.respond request).parser.cursor = p.cursor
  passed :
    ∀ kind, request = .expect kind →
      (p.respond request).error? = none →
        (p.respond request).parser.cursor =
          if kind = .endOfInput then p.cursor
          else p.cursor + 1

/- A request ends all phrases that it begins. -/
theorem openAfter?_respond
    (p : Parser)
    (request : Request) :
    ParseEvent.openAfter? [] (p.respond request).trace =
      some [] := by
  have hRun := openAfter?_run [request.goal] p
  rw [openPhrases_goal, ← respond_eq_run] at hRun
  exact hRun

/- Every request at a position of a sequence is orderly. -/
theorem orderly_before
    {ts : TokenSequence}
    {cursor : Nat}
    (hCursor : cursor ≤ ts.body.length)
    (request : Request) :
    Orderly ts (before ts cursor) request := by
  have hSize := ts.size_eq
  have hRun := respond_eq_run (before ts cursor) request
  rcases exists_parser_run_eq hCursor [request.goal] with
    ⟨last, hLast, hBody, hEnd⟩
  rw [← hRun] at hEnd
  constructor
  case onward =>
    rw [hEnd]
    exact hLast
  case within =>
    rw [hEnd]
    exact hSize ▸ Nat.lt_succ_of_le hBody
  case seen =>
    intro used goals q hLeads
    rcases hLeads.exists_before_eq hCursor with
      ⟨reached, _, hReached, hEq⟩
    have hInside : reached < ts.size :=
      hSize ▸ Nat.lt_succ_of_le hReached
    rw [hEq]
    exact ⟨hInside, getElem?_tokens_cursor hInside⟩
  case unwound =>
    exact openAfter?_respond (before ts cursor) request
  case rejected =>
    intro e hError
    rw [hRun] at hError ⊢
    exact getElem?_cursor_of_error? hCursor hError
  case reported =>
    intro e hError
    rw [hRun] at hError ⊢
    rw [← openPhrases_goal request]
    exact exists_trace_of_error? hError
  case refused =>
    intro kind hRequest hError
    subst hRequest
    refine (cursor_expect_before hCursor kind).trans ?_
    exact if_neg (fun hBoth => hError hBoth.1)
  case passed =>
    intro kind hRequest hOk
    subst hRequest
    refine (cursor_expect_before hCursor kind).trans ?_
    by_cases hMarker : kind = .endOfInput
    · rw [if_pos hMarker,
        if_neg (fun hBoth => hBoth.2 hMarker)]
      rfl
    · rw [if_neg hMarker, if_pos ⟨hOk, hMarker⟩]
      rfl

/- No phrase is open behind the requests of a session. -/
theorem openAfter?_respondAll
    (p : Parser)
    (requests : List Request) :
    ParseEvent.openAfter? []
        ((p.respondAll requests).flatMap Outcome.trace) =
      some [] := by
  induction requests generalizing p with
  | nil =>
      rfl
  | cons request requests ih =>
      rw [respondAll, List.flatMap_cons,
        ParseEvent.openAfter?_append,
        p.openAfter?_respond request]
      exact ih _

/-
  Every request of a session on a sequence is orderly, whether
  the requests before it have succeeded or not, and no phrase
  is open behind it.
-/
theorem orderly_afterAll
    (ts : TokenSequence)
    (requests : List Request)
    (request : Request) :
    Orderly ts ((ofSequence ts).afterAll requests) request ∧
      ParseEvent.openAfter? []
          (((ofSequence ts).respondAll
            (requests ++ [request])).flatMap
              Outcome.trace) =
        some [] := by
  rcases exists_afterAll_eq ts requests with
    ⟨cursor, hCursor, hAfter⟩
  rw [hAfter]
  exact
    ⟨orderly_before hCursor request,
      openAfter?_respondAll _ _⟩

end Parser

end IntDecl
