import IntDecl.Proofs.Verdict
import IntDecl.Proofs.Viability

/-
  This file relates the open phrases that a syntax error
  reports to the parentheses before it.

  Every group that is open adds an expression, a term and a
  factor to the phrases that are open around it. Groups are
  opened and closed by parentheses, so their number is told
  by the tokens that have been passed, whatever else there is
  among them.

  Key definitions include:
    * `Phase.depth`

  Key theorems include:
    * `Phase.depth_of_read?`
    * `Phase.exists_leads_read?`
    * `Phase.names_openPhrases`
    * `TokenSequence.exists_phase_of_syntaxError?`
    * `TokenSequence.stack_of_syntaxError?`
-/

------------------------------------------------------------
-- Open Groups
------------------------------------------------------------

namespace IntDecl

namespace Phase

/- The number of groups that are open in a phase. -/
def depth : Phase → Nat
| .operand depth => depth
| .operator depth => depth
| _ => 0

/- A parenthesis opens or closes one group. -/
theorem depth_of_next?
    {phase next : Phase}
    {kind : TokenKind}
    (hNext : phase.next? kind = some next) :
    next.depth + [kind].count .rparen =
      phase.depth + [kind].count .lparen := by
  unfold next? at hNext
  split at hNext <;> cases hNext <;> rfl

/-
  What is read opens as many groups as it has opening
  parentheses and closes as many as it has closing ones.
-/
theorem depth_of_read?
    {phase last : Phase}
    {kinds : List TokenKind}
    (hRead : phase.read? kinds = some last) :
    last.depth + kinds.count .rparen =
      phase.depth + kinds.count .lparen := by
  induction kinds generalizing phase with
  | nil =>
      cases hRead
      rfl
  | cons kind kinds ih =>
      rw [read?_cons, Option.bind_eq_some_iff] at hRead
      rcases hRead with ⟨next, hNext, hRest⟩
      have hFirst := depth_of_next? hNext
      have hLater := ih hRest
      rw [← List.singleton_append, List.count_append,
        List.count_append]
      omega

end Phase

end IntDecl

------------------------------------------------------------
-- Phrases Around Open Groups
------------------------------------------------------------

namespace IntDecl

namespace Goal

/- The names of the phrases outside of some open groups. -/
theorem names_openPhrases_outside
    (depth : Nat) :
    (openPhrases (outside depth)).reverse.map
        NonTerminal.name =
      "Program" :: (List.replicate depth
        ["Expression", "Term", "Factor"]).flatten := by
  induction depth with
  | zero =>
      rfl
  | succ depth ih =>
      have hOpen :
          openPhrases (outside (depth + 1)) =
            [.factor, .term, .expression] ++
              openPhrases (outside depth) := rfl
      rw [hOpen, List.reverse_append, List.map_append, ih,
        List.replicate_succ', List.flatten_append]
      rfl

end Goal

namespace Phase

/-
  An expression, a term and a factor are open for each open
  group of a phase, and once more where an operand comes next.
-/
theorem names_openPhrases
    {phase : Phase}
    (hUnfinished : phase ≠ .finished) :
    phase.openPhrases.reverse.map NonTerminal.name =
      "Program" :: (List.replicate
        (if phase.expected = [.number, .lparen] then
          phase.depth + 1
        else
          phase.depth)
        ["Expression", "Term", "Factor"]).flatten := by
  cases phase with
  | start | typed | named =>
      rfl
  | operand depth =>
      exact Goal.names_openPhrases_outside (depth + 1)
  | operator depth =>
      cases depth with
      | zero =>
          exact Goal.names_openPhrases_outside 0
      | succ depth =>
          exact Goal.names_openPhrases_outside (depth + 1)
  | finished =>
      exact absurd rfl hUnfinished

/- A closing parenthesis is asked for in an open group. -/
theorem depth_pos_of_expected
    {phase : Phase}
    (hExpected : phase.expected = [.rparen]) :
    1 ≤ phase.depth := by
  cases phase with
  | start | typed | named | operand _ | finished =>
      cases hExpected
  | operator depth =>
      cases depth with
      | zero =>
          cases hExpected
      | succ depth =>
          exact Nat.le_add_left 1 depth

/- A semicolon is asked for outside of all groups. -/
theorem depth_eq_zero_of_expected
    {phase : Phase}
    (hExpected : phase.expected = [.semicolon]) :
    phase.depth = 0 := by
  cases phase with
  | start | typed | named | operand _ | finished =>
      cases hExpected
  | operator depth =>
      cases depth with
      | zero =>
          rfl
      | succ _ =>
          cases hExpected

end Phase

end IntDecl

------------------------------------------------------------
-- The Phase Of An Error
------------------------------------------------------------

namespace IntDecl

namespace Phase

/-
  From a phase on, the tokens ahead are read up to the first
  one that does not fit. The end mark never does.
-/
theorem exists_leads_read?
    (phase : Phase)
    (p : Parser) :
    ∃ used last q,
      phase.read? used = some last ∧
        Parser.Leads phase.agenda p used last.agenda q ∧
        last.next? q.peek.kind = none := by
  -- Over the tokens ahead: the phase and the position change
  -- with every token that is read.
  rcases p with ⟨tokens, marker, cursor⟩
  induction tokens generalizing phase cursor with
  | nil =>
      exact
        ⟨[], phase, _, rfl, .refl, next?_endOfInput phase⟩
  | cons token tokens ih =>
      cases hNext : phase.next? token.kind with
      | none =>
          exact ⟨[], phase, _, rfl, .refl, hNext⟩
      | some next =>
          have hFirst := leads_agenda
            (p := ⟨token :: tokens, marker, cursor⟩) hNext
          rcases ih next (cursor + 1) with
            ⟨used, last, q, hRead, hLater, hNone⟩
          refine
            ⟨token.kind :: used, last, q, ?_,
              hFirst.trans hLater, hNone⟩
          rw [read?_cons, hNext]
          exact hRead

end Phase

namespace TokenSequence

/-
  An error in a sequence is that of the unfinished phase that
  its tokens have been read to.
-/
theorem exists_phase_of_syntaxError?
    {ts : TokenSequence}
    {e : SyntaxError}
    (hError : ts.syntaxError? = some e) :
    ∃ phase,
      Phase.start.read?
          (ts.kinds.take ts.parse.parser.cursor) =
        some phase ∧
      phase ≠ .finished ∧
      e.expected = phase.expected ∧
      e.stack =
        phase.openPhrases.reverse.map NonTerminal.name := by
  rcases Phase.start.exists_leads_read?
      (Parser.ofSequence ts) with
    ⟨used, phase, q, hRead, hLeads, hNone⟩
  -- Behind the chain nothing is passed any more, so the run
  -- ends as the phase does that the chain has led to.
  rcases hLeads.exists_run_eq with ⟨events, hRun⟩
  rcases Phase.run_of_next? hNone with ⟨hPhase, hEnd⟩
  have hParse :
      ts.parse = (Parser.run phase.agenda q).after events :=
    hRun
  have hArises : ∀ g ∈ Phase.start.agenda, g.Arises := by
    simp [Phase.agenda, Goal.Arises]
  have hUsed := hLeads.used_prefix hArises
  rw [Parser.ofSequence, Parser.kinds_before,
    List.drop_zero] at hUsed
  have hBefore :=
    (hLeads.eq_before hArises (Nat.zero_le _)).2
  have hCursor : ts.parse.parser.cursor = used.length := by
    rw [hParse, Outcome.parser_after, hEnd, hBefore,
      Nat.zero_add]
    rfl
  rw [syntaxError?, hParse, Outcome.error?_after, hPhase,
    Phase.error?] at hError
  split at hError
  case isTrue =>
    cases hError
  case isFalse hUnfinished =>
    cases hError
    refine ⟨phase, ?_, hUnfinished, rfl, rfl⟩
    rw [hCursor, take_kinds_of_prefix hUsed]
    exact hRead

/-
  The phrases that a syntax error reports mirror the groups
  that are open before it. Their number is the number of
  opening parentheses less that of closing ones among the
  tokens that have been passed.
-/
theorem stack_of_syntaxError?
    {ts : TokenSequence}
    {e : SyntaxError}
    (hError : ts.syntaxError? = some e) :
    let passed := ts.kinds.take ts.parse.parser.cursor
    let depth := passed.count .lparen - passed.count .rparen
    passed.count .rparen ≤ passed.count .lparen ∧
      e.stack =
        "Program" :: (List.replicate
          (if e.expected = [.number, .lparen] then
            depth + 1
          else
            depth)
          ["Expression", "Term", "Factor"]).flatten ∧
      (e.expected = [.rparen] → 1 ≤ depth) ∧
      (e.expected = [.semicolon] → depth = 0) := by
  intro passed depth
  rcases exists_phase_of_syntaxError? hError with
    ⟨phase, hRead, hUnfinished, hExpected, hStack⟩
  have hGroups :
      phase.depth + passed.count .rparen =
        0 + passed.count .lparen :=
    Phase.depth_of_read? hRead
  have hDepth : depth = phase.depth := by
    omega
  rw [hDepth, hStack, hExpected]
  exact
    ⟨by omega, Phase.names_openPhrases hUnfinished,
      Phase.depth_pos_of_expected,
      Phase.depth_eq_zero_of_expected⟩

/- Closed groups and open ones, and an operand missing. -/
theorem stack_of_syntaxError?_in_groups :
    let ts :=
      TokenSequence.ofSource "int x = ((1) * (2 + (3 + ;"
    let e : SyntaxError :=
      { expected := [.number, .lparen]
        found := ⟨⟨.semicolon, ";"⟩, ⟨25, 1⟩⟩
        stack :=
          "Program" :: (List.replicate 4
            ["Expression", "Term", "Factor"]).flatten }
    let passed := ts.kinds.take ts.parse.parser.cursor
    let depth := passed.count .lparen - passed.count .rparen
    ts.syntaxError? = some e ∧ depth = 3 ∧
      passed.count .rparen ≤ passed.count .lparen ∧
      e.stack =
        "Program" :: (List.replicate
          (if e.expected = [.number, .lparen] then
            depth + 1
          else
            depth)
          ["Expression", "Term", "Factor"]).flatten ∧
      (e.expected = [.rparen] → 1 ≤ depth) ∧
      (e.expected = [.semicolon] → depth = 0) := by
  intro ts e passed depth
  have hError : ts.syntaxError? = some e := by
    decide +kernel
  have hDepth : depth = 3 := by
    decide +kernel
  exact ⟨hError, hDepth, stack_of_syntaxError? hError⟩

end TokenSequence

end IntDecl
