import IntDecl.Proofs.Logging
import IntDecl.Proofs.Unwinding

/-
  This file states what the log of recognition tells.

  The events of recognition are a faithful trace of it. The
  tokens that they name are those that were passed, and each
  event gives the number of tokens passed until then. Phrases
  end with success, except for those that are open where a
  token does not fit. They end there, in order and as the
  last events.

  Key definitions include:
    * `ParseEvent.CountedFrom`
    * `Parser.Passage`
    * `ParseEvent.Faithful`

  Key theorems include:
    * `ParseEvent.CountedFrom.append`
    * `Parser.Passage.trans`
    * `Parser.Leads.exists_passage`
    * `Parser.exists_passage_run`
    * `TokenSequence.faithful_parse`
    * `faithful_compileLog`
-/

------------------------------------------------------------
-- Counted Events
------------------------------------------------------------

namespace IntDecl

namespace ParseEvent

/- The position that an event gives. -/
def cursor : ParseEvent → Nat
| opened _ cursor => cursor
| consumed _ cursor => cursor
| closed _ cursor _ => cursor

/- Only the end of a phrase can be without success. -/
def ok : ParseEvent → Bool
| closed _ _ ok => ok
| _ => true

/-
  Every event gives the number of tokens that are passed up
  to it and with it, if `start` were passed before.
-/
def CountedFrom
    (start : Nat)
    (events : List ParseEvent) : Prop :=
  ∀ before event after,
    events = before ++ event :: after →
      event.cursor =
        start +
          ((before ++ [event]).filterMap token?).length

variable {start : Nat}
variable {first second events : List ParseEvent}

/- Events go on to be counted where others have ended. -/
theorem CountedFrom.append
    (hFirst : CountedFrom start first)
    (hSecond :
      CountedFrom (start + (first.filterMap token?).length)
        second) :
    CountedFrom start (first ++ second) := by
  intro before event after hEvents
  rcases List.append_eq_append_iff.mp hEvents with
    ⟨middle, hBefore, hAfter⟩ | ⟨middle, hBefore, hAfter⟩
  · rw [hSecond middle event after hAfter, Nat.add_assoc,
      ← List.length_append, ← List.filterMap_append,
      ← List.append_assoc, hBefore]
  · cases middle with
    | nil =>
        rw [List.append_nil] at hBefore
        rw [hSecond [] event after hAfter.symm,
          Nat.add_assoc, ← List.length_append,
          ← List.filterMap_append, List.nil_append, hBefore]
    | cons other middle =>
        cases hAfter
        exact hFirst before event middle hBefore

/- Events that pass no token stay at one position. -/
theorem countedFrom_of_forall
    (hEvents :
      ∀ event ∈ events,
        event.token? = none ∧ event.cursor = start) :
    CountedFrom start events := by
  intro before event after hSplit
  subst hSplit
  have hNone :
      (before ++ [event]).filterMap token? = [] := by
    rw [List.filterMap_eq_nil_iff]
    intro other hMem
    exact (hEvents other (by grind)).1
  rw [hNone, (hEvents event (by simp)).2]
  rfl

/- An event that passes a token is one step ahead. -/
theorem countedFrom_consumed
    (token : Token)
    (start : Nat) :
    CountedFrom start [consumed token (start + 1)] := by
  intro before event after hSplit
  rcases List.singleton_eq_append_iff.mp hSplit with
    ⟨hBefore, hRest⟩ | ⟨_, hRest⟩
  · cases hRest
    rw [hBefore]
    rfl
  · cases hRest

end ParseEvent

/- What a goal reports before its move passes nothing. -/
theorem Goal.quiet_opening
    (goal : Goal)
    (cursor : Nat) :
    ∀ event ∈ goal.opening cursor,
      event.token? = none ∧ event.cursor = cursor ∧
        event.ok = true := by
  cases goal with
  | phrase n =>
      exact List.forall_mem_singleton.mpr ⟨rfl, rfl, rfl⟩
  | close n =>
      exact List.forall_mem_singleton.mpr ⟨rfl, rfl, rfl⟩
  | token kind | moreTerms | moreFactors =>
      exact List.forall_mem_nil _

end IntDecl

------------------------------------------------------------
-- Passages
------------------------------------------------------------

namespace IntDecl

namespace Parser

/-
  Events that report how a parser comes from one position to
  another without failure: the tokens in between are passed,
  they are counted, and no phrase ends without success.
-/
structure Passage
    (p : Parser)
    (events : List ParseEvent)
    (q : Parser) : Prop where
  ahead :
    p.ahead = events.filterMap ParseEvent.token? ++ q.ahead
  cursor :
    q.cursor =
      p.cursor +
        (events.filterMap ParseEvent.token?).length
  counted : ParseEvent.CountedFrom p.cursor events
  ok : ∀ event ∈ events, event.ok = true

variable {p q r : Parser}
variable {events first second : List ParseEvent}

/- No events report that a parser stays where it is. -/
theorem Passage.refl
    (p : Parser) :
    Passage p [] p where
  ahead := rfl
  cursor := rfl
  counted := ParseEvent.countedFrom_of_forall (by simp)
  ok := by
    simp

/- Passages are put together. -/
theorem Passage.trans
    (hFirst : Passage p first q)
    (hSecond : Passage q second r) :
    Passage p (first ++ second) r where
  ahead := by
    rw [hFirst.ahead, hSecond.ahead, List.filterMap_append,
      List.append_assoc]
  cursor := by
    rw [hSecond.cursor, hFirst.cursor,
      List.filterMap_append, List.length_append,
      Nat.add_assoc]
  counted := by
    have hCounted := hSecond.counted
    rw [hFirst.cursor] at hCounted
    exact hFirst.counted.append hCounted
  ok :=
    List.forall_mem_append.mpr ⟨hFirst.ok, hSecond.ok⟩

/- What is reported of a goal before its move. -/
theorem passage_opening
    (goal : Goal)
    (p : Parser) :
    Passage p (goal.opening p.cursor) p where
  ahead := by
    rw [goal.filterMap_token?_opening]
    rfl
  cursor := by
    rw [goal.filterMap_token?_opening]
    rfl
  counted := by
    apply ParseEvent.countedFrom_of_forall
    intro event hMem
    have hQuiet := goal.quiet_opening p.cursor event hMem
    exact ⟨hQuiet.1, hQuiet.2.1⟩
  ok := by
    intro event hMem
    exact (goal.quiet_opening p.cursor event hMem).2.2

/- A token other than the end mark is passed by one event. -/
theorem passage_passing
    (hNext : p.peek.kind ≠ .endOfInput) :
    Passage p [p.passing] p.advance := by
  cases hAhead : p.ahead with
  | nil =>
      rw [peek, hAhead] at hNext
      exact absurd rfl hNext
  | cons token rest =>
      have hPassing :
          p.passing = .consumed token (p.cursor + 1) := by
        rw [passing, peek, advance, hAhead]
        rfl
      have hAdvance :
          p.advance =
            { p with ahead := rest, cursor := p.cursor + 1 }
            := by
        rw [advance, hAhead]
      rw [hPassing, hAdvance]
      constructor
      case ahead =>
        exact hAhead
      case cursor =>
        rfl
      case counted =>
        exact ParseEvent.countedFrom_consumed token p.cursor
      case ok =>
        simp [ParseEvent.ok]

/- A chain of moves is reported as a passage. -/
theorem Leads.exists_passage
    {goals last : List Goal}
    {used : List TokenKind}
    (hLeads : Leads goals p used last q)
    (hArises : ∀ g ∈ goals, g.Arises) :
    ∃ events,
      run goals p = (run last q).after events ∧
        Passage p events q := by
  induction hLeads with
  | @refl goals p =>
      exact ⟨[], rfl, .refl p⟩
  | @replace goal goals new last p q used hMove _ ih =>
      have hNew := Goal.arises_append
        (Goal.arises_of_replace hMove) hArises
      rcases ih hNew with ⟨events, hRun, hPassage⟩
      refine ⟨goal.opening p.cursor ++ events, ?_,
        (passage_opening goal p).trans hPassage⟩
      rw [run_of_replace hMove, hRun, Outcome.after_after]
  | @pass goal goals new last p q used hMove _ ih =>
      have hNew := Goal.arises_append
        (Goal.arises_of_pass hMove) hArises
      have hNext := Goal.ne_endOfInput_of_pass
        (hArises _ List.mem_cons_self) hMove
      rcases ih hNew with ⟨events, hRun, hPassage⟩
      have hToken :=
        (passage_opening goal p).trans (passage_passing hNext)
      refine
        ⟨goal.opening p.cursor ++ [p.passing] ++ events, ?_,
          hToken.trans hPassage⟩
      rw [run_of_pass hMove, hRun, Outcome.after_after]

/-
  A run is reported as a passage to where it has ended and
  the end of the phrases that were open there. None was open
  after a success, and an error names all that were.
-/
theorem exists_passage_run
    {goals : List Goal}
    (hArises : ∀ g ∈ goals, g.Arises)
    (p : Parser) :
    ∃ events phrases,
      (run goals p).trace =
          events ++ List.map
            (fun n =>
              .closed n (run goals p).parser.cursor false)
            phrases ∧
        Passage p events (run goals p).parser ∧
        ((run goals p).error? = none → phrases = []) ∧
        ∀ e ∈ (run goals p).error?,
          phrases.map NonTerminal.name = e.stack.reverse := by
  rcases exists_leads_rests goals p with
    ⟨used, last, q, hLeads, hRests⟩
  rcases hLeads.exists_passage hArises with
    ⟨events, hRun, hPassage⟩
  rw [hLeads.parser_run hRests, hRun]
  cases last with
  | nil =>
      rw [run]
      refine ⟨events, [], rfl, hPassage, fun _ => rfl, ?_⟩
      intro e hError
      cases hError
  | cons goal rest =>
      rcases hRests with ⟨expected, new, hMove⟩
      rw [run_of_reject hMove, Outcome.after_after]
      refine
        ⟨events ++ goal.opening q.cursor,
          Goal.openPhrases (new ++ rest), rfl,
          hPassage.trans (passage_opening goal q), ?_, ?_⟩
      · intro hNone
        cases hNone
      · intro e hError
        cases hError
        rw [← List.map_reverse, List.reverse_reverse]

end Parser

end IntDecl

------------------------------------------------------------
-- Faithful Traces
------------------------------------------------------------

namespace IntDecl

/-
  Events are a faithful trace of how a sequence is recognized.
  Phrases that begin end again, the last one first. The tokens
  that were passed are the first tokens of the sequence, up to
  the position where recognition has stopped, and each event
  gives their number. A success reports no failure. A failure
  reports at last, and once for each phrase on the stack of
  the error, innermost first, that it ends there without
  success, and reports no other failure.
-/
structure ParseEvent.Faithful
    (ts : TokenSequence)
    (events : List ParseEvent) : Prop where
  nested : openAfter? [] events = some []
  consumed :
    events.filterMap token? =
      ts.tokens.take ts.parse.parser.cursor
  stopped :
    (events.filterMap token?).length =
      ts.parse.parser.cursor
  counted : CountedFrom 0 events
  succeeded :
    ts.syntaxError? = none →
      ∀ event ∈ events, event.ok = true
  failed :
    ∀ e, ts.syntaxError? = some e →
      ∃ before phrases,
        events =
            before ++ List.map
              (fun n =>
                .closed n ts.parse.parser.cursor false)
              phrases ∧
          phrases.map NonTerminal.name = e.stack.reverse ∧
          ∀ event ∈ before, event.ok = true

/- The events of recognition are a faithful trace of it. -/
theorem TokenSequence.faithful_parse
    (ts : TokenSequence) :
    ParseEvent.Faithful ts ts.parse.trace := by
  have hArises :
      ∀ g ∈ [Goal.phrase .program], g.Arises := by
    simp [Goal.Arises]
  rcases Parser.exists_passage_run hArises
      (Parser.ofSequence ts) with
    ⟨events, phrases, hTrace, hPassage, hNone, hSome⟩
  change ts.parse.trace = _ at hTrace
  change Parser.Passage _ _ ts.parse.parser at hPassage
  have hTokens :
      ts.parse.trace.filterMap ParseEvent.token? =
        events.filterMap ParseEvent.token? := by
    rw [hTrace, List.filterMap_append,
      ParseEvent.filterMap_token?_closed, List.append_nil]
  have hLength :
      (events.filterMap ParseEvent.token?).length =
        ts.parse.parser.cursor :=
    (hPassage.cursor.trans (Nat.zero_add _)).symm
  constructor
  case nested =>
    exact Parser.openAfter?_run [.phrase .program]
      (Parser.ofSequence ts)
  case consumed =>
    have hBody : ts.body = _ := hPassage.ahead
    rw [hTokens, TokenSequence.tokens, hBody,
      List.append_assoc, List.take_left' hLength]
  case stopped =>
    rw [hTokens]
    exact hLength
  case counted =>
    rw [hTrace]
    apply hPassage.counted.append
    apply ParseEvent.countedFrom_of_forall
    intro event hMem
    rcases List.mem_map.mp hMem with ⟨n, _, rfl⟩
    exact ⟨rfl, hPassage.cursor⟩
  case succeeded =>
    intro hOk
    rw [hTrace, hNone hOk, List.map_nil, List.append_nil]
    exact hPassage.ok
  case failed =>
    intro e hError
    exact ⟨events, phrases, hTrace, hSome e hError,
      hPassage.ok⟩

/-
  The log of recognition is a faithful trace. At the least
  severity, a compilation logs there the events of such a
  trace and nothing else.
-/
theorem faithful_compileLog
    (options : Options)
    (src : String) :
    ∃ events,
      Record.within .parse
          (Record.atLeast .trace (compileLog options src)) =
        events.map .parse ∧
      ParseEvent.Faithful (TokenSequence.ofSource src)
        events :=
  ⟨(TokenSequence.ofSource src).parse.trace,
    within_parse_compileLog options src,
    (TokenSequence.ofSource src).faithful_parse⟩

end IntDecl
