import IntDecl.Proofs.Lookahead

/-
  This file follows a parser through a session, a series of
  requests each of which is made where the one before it
  ended, with or without success.

  The positions of a session are positions of the sequence
  that the parser started on, and they never go back.

  Key definitions include:
    * `Parser.Request`
    * `Parser.respond`
    * `Parser.respondAll`
    * `Parser.afterAll`

  Key theorems include:
    * `Parser.Leads.exists_before_eq`
    * `Parser.exists_parser_run_eq`
    * `Parser.getElem?_cursor_of_error?`
    * `Parser.exists_afterAll_eq`
-/

------------------------------------------------------------
-- Requests
------------------------------------------------------------

namespace IntDecl

namespace Parser

/-
  What is asked of a parser: to recognize a phrase, or to pass
  one token of a kind.
-/
inductive Request where
| recognize (n : NonTerminal)
| expect (kind : TokenKind)
deriving DecidableEq, Repr

/- The outcome of a request. -/
def respond (p : Parser) : Request → Outcome
| .recognize n => p.recognize n
| .expect kind => p.expect kind

/- The goal that a request puts on the agenda. -/
def Request.goal : Request → Goal
| .recognize n => .phrase n
| .expect kind => .token kind

/- A request puts the end of no phrase on the agenda. -/
theorem openPhrases_goal
    (request : Request) :
    Goal.openPhrases [request.goal] = [] := by
  cases request with
  | recognize n =>
      rfl
  | expect kind =>
      rfl

/- A request is an agenda of one goal. -/
theorem respond_eq_run
    (p : Parser)
    (request : Request) :
    p.respond request = run [request.goal] p := by
  cases request with
  | recognize n =>
      rfl
  | expect kind =>
      rfl

end Parser

end IntDecl

------------------------------------------------------------
-- Sessions
------------------------------------------------------------

namespace IntDecl

namespace Parser

/-
  The outcomes of some requests, each of them made where the
  one before it ended.
-/
def respondAll : Parser → List Request → List Outcome
| _, [] => []
| p, request :: requests =>
    p.respond request ::
      respondAll (p.respond request).parser requests

/- The parser after some requests. -/
def afterAll : Parser → List Request → Parser
| p, [] => p
| p, request :: requests =>
    afterAll (p.respond request).parser requests

end Parser

end IntDecl

------------------------------------------------------------
-- Positions In A Session
------------------------------------------------------------

namespace IntDecl

namespace Parser

/- Passing a token leads to a position of the sequence. -/
theorem exists_advance_before_eq
    {ts : TokenSequence}
    {cursor : Nat}
    (hCursor : cursor ≤ ts.body.length) :
    ∃ last, cursor ≤ last ∧ last ≤ ts.body.length ∧
      (before ts cursor).advance = before ts last := by
  by_cases hBody : cursor < ts.body.length
  · exact ⟨cursor + 1, by omega, hBody, advance_before hBody⟩
  · have hEnd : cursor = ts.body.length := by
      omega
    subst hEnd
    exact
      ⟨_, Nat.le_refl _, hCursor, advance_before_length ts⟩

/-
  Moves from a position of a sequence lead to a later one or
  to the same.
-/
theorem Leads.exists_before_eq
    {ts : TokenSequence}
    {cursor : Nat}
    {goals last : List Goal}
    {q : Parser}
    {used : List TokenKind}
    (hLeads : Leads goals (before ts cursor) used last q)
    (hCursor : cursor ≤ ts.body.length) :
    ∃ reached, cursor ≤ reached ∧
      reached ≤ ts.body.length ∧ q = before ts reached := by
  generalize hStart : before ts cursor = p at hLeads
  induction hLeads generalizing cursor with
  | refl =>
      exact ⟨cursor, Nat.le_refl _, hCursor, hStart.symm⟩
  | replace _ _ ih =>
      exact ih hCursor hStart
  | pass _ _ ih =>
      subst hStart
      rcases exists_advance_before_eq hCursor with
        ⟨next, hNext, hBody, hAdvance⟩
      rcases ih hBody hAdvance.symm with
        ⟨reached, hReached, hEnd, hEq⟩
      exact
        ⟨reached, Nat.le_trans hNext hReached, hEnd, hEq⟩

/-
  A run from a position of a sequence ends at a later one or
  at the same.
-/
theorem exists_parser_run_eq
    {ts : TokenSequence}
    {cursor : Nat}
    (hCursor : cursor ≤ ts.body.length)
    (goals : List Goal) :
    ∃ last, cursor ≤ last ∧ last ≤ ts.body.length ∧
      (run goals (before ts cursor)).parser =
        before ts last := by
  rcases exists_leads_rests goals (before ts cursor) with
    ⟨used, rest, q, hLeads, hRests⟩
  rw [hLeads.parser_run hRests]
  exact hLeads.exists_before_eq hCursor

/-
  An error is found at the token where the run has ended, and
  that token is of no expected kind.
-/
theorem getElem?_cursor_of_error?
    {ts : TokenSequence}
    {cursor : Nat}
    {goals : List Goal}
    {e : SyntaxError}
    (hCursor : cursor ≤ ts.body.length)
    (hError :
      (run goals (before ts cursor)).error? = some e) :
    ts.tokens[
          (run goals (before ts cursor)).parser.cursor]? =
        some e.found ∧
      e.found.kind ∉ e.expected := by
  rcases exists_leads_of_error?_eq_some hError with
    ⟨_, _, _, _, _, hMove, hFound⟩
  rcases exists_parser_run_eq hCursor goals with
    ⟨last, _, hBody, hEnd⟩
  have hInside : last < ts.size :=
    ts.size_eq ▸ Nat.lt_succ_of_le hBody
  rw [hFound]
  refine ⟨?_, Goal.not_mem_expected hMove⟩
  rw [hEnd]
  exact getElem?_tokens_cursor hInside

/- A session does not leave the sequence that it started on. -/
theorem exists_afterAll_before_eq
    {ts : TokenSequence}
    {cursor : Nat}
    (hCursor : cursor ≤ ts.body.length)
    (requests : List Request) :
    ∃ last, cursor ≤ last ∧ last ≤ ts.body.length ∧
      (before ts cursor).afterAll requests =
        before ts last := by
  induction requests generalizing cursor with
  | nil =>
      exact ⟨cursor, Nat.le_refl _, hCursor, rfl⟩
  | cons request requests ih =>
      rcases exists_parser_run_eq hCursor [request.goal] with
        ⟨next, hNext, hBody, hRun⟩
      rcases ih hBody with ⟨last, hLast, hEnd, hAfter⟩
      rw [afterAll, respond_eq_run, hRun]
      exact ⟨last, Nat.le_trans hNext hLast, hEnd, hAfter⟩

/- Sessions from the start of a sequence reach its positions. -/
theorem exists_afterAll_eq
    (ts : TokenSequence)
    (requests : List Request) :
    ∃ cursor, cursor ≤ ts.body.length ∧
      (ofSequence ts).afterAll requests =
        before ts cursor := by
  rcases exists_afterAll_before_eq (Nat.zero_le _) requests
    with ⟨cursor, _, hBody, hAfter⟩
  exact ⟨cursor, hBody, hAfter⟩

end Parser

end IntDecl
