import IntDecl.Proofs.Contraction
import IntDecl.Proofs.Phase
import IntDecl.Proofs.Placement

/-
  This file reads the verdict on a token sequence off the
  phases of a program.

  Reading goes from phase to phase and halts at the first
  token that does not fit. That token and the phase before it
  are all that an error tells of a sequence: the phase names
  the kinds that would have fitted and the phrases that are
  open. Folding leaves the phase as it is, because a number
  leads to the same phase as an addition of two numbers.

  Key definitions include:
    * `Phase.expected`
    * `Phase.openPhrases`
    * `Phase.error?`
    * `Phase.halt`
    * `Phase.SameHalt`
    * `SyntaxError.AgreesIn`

  Key theorems include:
    * `Phase.error?_run`
    * `TokenSequence.syntaxError?_eq`
    * `Phase.halt_window`
    * `Phase.sameHalt_contract`
    * `TokenSequence.rel_syntaxError?_fold`
-/

------------------------------------------------------------
-- Errors Of Phases
------------------------------------------------------------

namespace IntDecl

namespace Phase

/- The kinds that an error in a phase names. -/
def expected : Phase → List TokenKind
| .start => [.intKeyword]
| .typed => [.identifier]
| .named => [.assign]
| .operand _ => [.number, .lparen]
| .operator (_ + 1) => [.rparen]
| .operator 0 => [.semicolon]
| .finished => []

/- The phrases that are open in a phase, innermost first. -/
def openPhrases : Phase → List NonTerminal
| .operand depth =>
    [.factor, .term, .expression] ++
      Goal.openPhrases (Goal.outside depth)
| .operator depth => Goal.openPhrases (Goal.outside depth)
| .finished => []
| _ => [.program]

/-
  The error at a token that does not fit in a phase. What
  comes behind a program is no error.
-/
def error?
    (phase : Phase)
    (found : Token) :
    Option SyntaxError :=
  if phase = .finished then
    none
  else
    some
      { expected := phase.expected
        found := found
        stack :=
          phase.openPhrases.reverse.map NonTerminal.name }

end Phase

end IntDecl

------------------------------------------------------------
-- Tokens That Do Not Fit
------------------------------------------------------------

namespace IntDecl

namespace Phase

/- A token that fits in a phase is not the one rejected. -/
theorem kind_ne_of_next?
    {phase : Phase}
    {kind other : TokenKind}
    (hNone : phase.next? kind = none)
    (hSome : (phase.next? other).isSome) :
    kind ≠ other := by
  rintro rfl
  rw [hNone] at hSome
  cases hSome

/- A goal that asks for a token rejects what does not fit. -/
theorem move_token_of_next?
    {phase : Phase}
    {next : TokenKind}
    (kind : TokenKind)
    (hNone : phase.next? next = none)
    (hSome : (phase.next? kind).isSome) :
    (Goal.token kind).move next = .reject [kind] [] :=
  if_neg (kind_ne_of_next? hNone hSome)

/-
  A token that does not fit in an unfinished phase is rejected
  by a goal of its agenda, with the kinds and the open phrases
  of the phase.
-/
theorem exists_leads_of_next?
    {phase : Phase}
    {p : Parser}
    (hNone : phase.next? p.peek.kind = none)
    (hUnfinished : phase ≠ .finished) :
    ∃ goal rest new,
      Parser.Leads phase.agenda p [] (goal :: rest) p ∧
        goal.move p.peek.kind =
          .reject phase.expected new ∧
        Goal.openPhrases (new ++ rest) =
          phase.openPhrases := by
  cases phase with
  | start =>
      have hMove :=
        move_token_of_next? .intKeyword hNone rfl
      exact ⟨_, _, _, .replace rfl .refl, hMove, rfl⟩
  | typed =>
      have hMove :=
        move_token_of_next? .identifier hNone rfl
      exact ⟨_, _, _, .refl, hMove, rfl⟩
  | named =>
      have hMove :=
        move_token_of_next? .assign hNone rfl
      exact ⟨_, _, _, .refl, hMove, rfl⟩
  | operand depth =>
      have hNumber : p.peek.kind ≠ .number :=
        kind_ne_of_next? hNone rfl
      have hGroup : p.peek.kind ≠ .lparen :=
        kind_ne_of_next? hNone rfl
      have hMove :
          (Goal.phrase .factor).move p.peek.kind =
            .reject [.number, .lparen] [.close .factor] := by
        simp [Goal.move, hNumber, hGroup]
      exact ⟨_, _, _, .refl, hMove, rfl⟩
  | operator depth =>
      have hPlus : p.peek.kind ≠ .plus :=
        kind_ne_of_next? hNone rfl
      have hMultiply : p.peek.kind ≠ .multiply :=
        kind_ne_of_next? hNone rfl
      have hLeads := Parser.leads_operator hPlus hMultiply
        (Goal.outside depth)
      cases depth with
      | zero =>
          have hMove :=
            move_token_of_next? .semicolon hNone rfl
          exact ⟨_, _, _, hLeads, hMove, rfl⟩
      | succ depth =>
          have hMove :=
            move_token_of_next? .rparen hNone rfl
          exact ⟨_, _, _, hLeads, hMove, rfl⟩
  | finished =>
      exact absurd rfl hUnfinished

/-
  A token that does not fit in a phase is an error there, and
  it is not passed.
-/
theorem run_of_next?
    {phase : Phase}
    {p : Parser}
    (hNone : phase.next? p.peek.kind = none) :
    (Parser.run phase.agenda p).error? =
        phase.error? p.peek ∧
      (Parser.run phase.agenda p).parser = p := by
  by_cases hFinished : phase = .finished
  · subst hFinished
    rw [agenda, Parser.run]
    exact ⟨rfl, rfl⟩
  · rcases exists_leads_of_next? hNone hFinished with
      ⟨goal, rest, new, hLeads, hMove, hOpen⟩
    refine ⟨?_, hLeads.parser_run ⟨_, _, hMove⟩⟩
    rw [hLeads.error?_run hMove, Parser.failure, error?,
      if_neg hFinished, hOpen]

end Phase

end IntDecl

------------------------------------------------------------
-- Reading Up To A Token That Does Not Fit
------------------------------------------------------------

namespace IntDecl

namespace Phase

/-
  The phase in which reading halts and the token that does
  not fit there, if there is one among the given tokens.
-/
def halt : Phase → List Token → Phase × Option Token
| phase, [] => (phase, none)
| phase, token :: tokens =>
    match phase.next? token.kind with
    | some next => next.halt tokens
    | none => (phase, some token)

/- A token that fits is passed. -/
theorem halt_cons_of_some
    {phase next : Phase}
    {token : Token}
    (hNext : phase.next? token.kind = some next)
    (tokens : List Token) :
    phase.halt (token :: tokens) = next.halt tokens := by
  rw [halt, hNext]

/- A token that does not fit is kept. -/
theorem halt_cons_of_none
    {phase : Phase}
    {token : Token}
    (hNone : phase.next? token.kind = none)
    (tokens : List Token) :
    phase.halt (token :: tokens) = (phase, some token) := by
  rw [halt, hNone]

/- No phase goes on with an end mark. -/
theorem next?_endOfInput
    (phase : Phase) :
    phase.next? .endOfInput = none := by
  unfold next?
  split <;> simp_all

/-
  Recognition from a phase on fails with the error of the
  phase in which reading halts. Where all tokens ahead fit,
  the end mark is what does not.
-/
theorem error?_run
    (phase : Phase)
    (p : Parser) :
    (Parser.run phase.agenda p).error? =
      (phase.halt p.ahead).1.error?
        ((phase.halt p.ahead).2.getD
          (Token.endOfInput p.marker)) := by
  rcases p with ⟨tokens, marker, cursor⟩
  induction tokens generalizing phase cursor with
  | nil =>
      exact (run_of_next? (next?_endOfInput phase)).1
  | cons token tokens ih =>
      cases hNext : phase.next? token.kind with
      | none =>
          rw [halt_cons_of_none hNext]
          exact (run_of_next? hNext).1
      | some next =>
          have hLeads := leads_agenda
            (p := ⟨token :: tokens, marker, cursor⟩) hNext
          rcases hLeads.exists_run_eq with ⟨events, hRun⟩
          rw [halt_cons_of_some hNext, hRun]
          exact ih next (cursor + 1)

end Phase

namespace TokenSequence

/- The error in a sequence is that of the halting phase. -/
theorem syntaxError?_eq
    (ts : TokenSequence) :
    ts.syntaxError? =
      (Phase.start.halt ts.body).1.error?
        ((Phase.start.halt ts.body).2.getD
          (Token.endOfInput ts.marker)) :=
  Phase.error?_run .start (Parser.ofSequence ts)

end TokenSequence

end IntDecl

------------------------------------------------------------
-- Halting On Folded Tokens
------------------------------------------------------------

namespace IntDecl

namespace Phase

/-
  A number takes the place of an addition: reading halts at
  the same token in the same phase, unless the first number
  of the addition does not fit. Then the number in its place
  does not fit in the same phase.
-/
theorem halt_window
    {lhs op rhs sum : Token}
    (hAddition : lhs.IsAddition op rhs)
    (hSum : sum.kind = .number)
    (phase : Phase)
    (before after : List Token) :
    phase.halt (before ++ lhs :: op :: rhs :: after) =
        phase.halt (before ++ sum :: after) ∨
      ∃ stop,
        phase.halt (before ++ lhs :: op :: rhs :: after) =
            (stop, some lhs) ∧
          phase.halt (before ++ sum :: after) =
            (stop, some sum) := by
  induction before generalizing phase with
  | nil =>
      rcases hAddition with ⟨hLeft, hPlus, hRight⟩
      cases phase with
      | operand depth =>
          left
          simp [halt, next?, hLeft, hPlus, hRight, hSum]
      | start | typed | named | operator depth | finished =>
          right
          exact
            ⟨_, halt_cons_of_none (by rw [hLeft]; rfl) _,
              halt_cons_of_none (by rw [hSum]; rfl) _⟩
  | cons token before ih =>
      cases hNext : phase.next? token.kind with
      | none =>
          left
          rw [List.cons_append, List.cons_append,
            halt_cons_of_none hNext, halt_cons_of_none hNext]
      | some next =>
          rw [List.cons_append, List.cons_append,
            halt_cons_of_some hNext, halt_cons_of_some hNext]
          exact ih next

/-
  Two halts are the same up to what a function tells of the
  token that does not fit.
-/
def SameHalt
    {α : Type}
    (f : Token → α)
    (first second : Phase × Option Token) :
    Prop :=
  first.1 = second.1 ∧ first.2.map f = second.2.map f

/- What two halts share with a third they share. -/
theorem SameHalt.trans
    {α : Type}
    {f : Token → α}
    {first second third : Phase × Option Token}
    (hFirst : SameHalt f first second)
    (hSecond : SameHalt f second third) :
    SameHalt f first third :=
  ⟨hFirst.1.trans hSecond.1, hFirst.2.trans hSecond.2⟩

/-
  A window that gives way keeps of a halt what is the same for
  the sum as for the first number of the window.
-/
theorem sameHalt_window
    {α : Type}
    {f : Token → α}
    {lhs op rhs sum : Token}
    (hWindow : Token.window? lhs op rhs = some sum)
    (hToken : f lhs = f sum)
    (phase : Phase)
    (before after : List Token) :
    SameHalt f
      (phase.halt (before ++ lhs :: op :: rhs :: after))
      (phase.halt (before ++ sum :: after)) := by
  have hAddition :=
    (Token.window?_eq_some_iff.mp hWindow).1
  have hSum := (Token.eq_of_window? hWindow).1
  rcases halt_window hAddition hSum phase before after with
    hEqual | ⟨stop, hLeft, hRight⟩
  · rw [hEqual]
    exact ⟨rfl, rfl⟩
  · rw [hLeft, hRight]
    exact ⟨rfl, congrArg some hToken⟩

/-
  Folding keeps of a halt what every window keeps. The tokens
  may be assumed to be such as every contraction leaves them.
-/
theorem sameHalt_contract
    {α : Type}
    (f : Token → α)
    (invariant : List Token → Prop)
    (hKept :
      ∀ tokens others, Token.Contracts tokens others →
        invariant tokens → invariant others)
    (hSame :
      ∀ before after lhs op rhs sum,
        invariant (before ++ lhs :: op :: rhs :: after) →
          Token.window? lhs op rhs = some sum →
            f lhs = f sum)
    (phase : Phase)
    {tokens : List Token}
    (hTokens : invariant tokens) :
    SameHalt f (phase.halt tokens)
      (phase.halt (Token.contract tokens)) := by
  have hStep :
      ∀ first second, Token.Contracts first second →
        invariant first ∧
            SameHalt f (phase.halt tokens)
              (phase.halt first) →
          invariant second ∧
            SameHalt f (phase.halt tokens)
              (phase.halt second) := by
    intro first second hContracts hFirst
    rcases hFirst with ⟨hInvariant, hHalt⟩
    refine
      ⟨hKept first second hContracts hInvariant, ?_⟩
    cases hContracts with
    | window hWindow =>
        have hToken := hSame _ _ _ _ _ _ hInvariant hWindow
        exact
          hHalt.trans (sameHalt_window hWindow hToken _ _ _)
  have hStart :
      invariant tokens ∧
        SameHalt f (phase.halt tokens)
          (phase.halt tokens) :=
    ⟨hTokens, rfl, rfl⟩
  exact (Token.contract_induction hStep hStart).2

end Phase

end IntDecl

------------------------------------------------------------
-- Sums Of Tokens In Order
------------------------------------------------------------

namespace IntDecl

namespace Token

/- Tokens in order stay in order when one is a sum. -/
theorem Contracts.ordered
    {tokens others : List Token}
    (hContracts : Contracts tokens others)
    (hOrdered : Ordered tokens) :
    Ordered others := by
  cases hContracts with
  | @window before after lhs op rhs sum hWindow =>
      have hSpan := (eq_of_window? hWindow).2
      simp only [Ordered, List.pairwise_append,
        List.pairwise_cons, List.forall_mem_cons]
        at hOrdered ⊢
      rcases hOrdered with
        ⟨hBefore, ⟨hLeft, _, hRight, hAfter⟩, hAcross⟩
      refine ⟨hBefore, ⟨?_, hAfter⟩, ?_⟩
      · intro t hMem
        rw [hSpan, Span.stop_join, Nat.max_le]
        exact ⟨hLeft.2.2 t hMem, hRight t hMem⟩
      · intro t hMem
        rcases hAcross t hMem with
          ⟨hFirst, _, hThird, hRest⟩
        rw [hSpan, Span.offset_join, Nat.le_min]
        exact ⟨⟨hFirst, hThird⟩, hRest⟩

/- A sum of tokens in order starts where the first does. -/
theorem Ordered.offset_of_window?
    {before after : List Token}
    {lhs op rhs sum : Token}
    (hOrdered :
      Ordered (before ++ lhs :: op :: rhs :: after))
    (hWindow : window? lhs op rhs = some sum) :
    lhs.span.offset = sum.span.offset := by
  simp only [Ordered, List.pairwise_append,
    List.pairwise_cons, List.forall_mem_cons] at hOrdered
  have hApart : lhs.span.stop ≤ rhs.span.offset :=
    hOrdered.2.1.1.2.1
  rw [(eq_of_window? hWindow).2, Span.offset_join]
  simp only [Span.stop] at hApart
  omega

/- A sum of tokens in order stops where the second does. -/
theorem Ordered.stop_of_window?
    {before after : List Token}
    {lhs op rhs sum : Token}
    (hOrdered :
      Ordered (before ++ lhs :: op :: rhs :: after))
    (hWindow : window? lhs op rhs = some sum) :
    sum.span.stop = rhs.span.stop := by
  simp only [Ordered, List.pairwise_append,
    List.pairwise_cons, List.forall_mem_cons] at hOrdered
  have hApart : lhs.span.stop ≤ rhs.span.offset :=
    hOrdered.2.1.1.2.1
  rw [(eq_of_window? hWindow).2, Span.stop_join]
  simp only [Span.stop] at hApart ⊢
  omega

end Token

end IntDecl

------------------------------------------------------------
-- Verdicts On Folded Sequences
------------------------------------------------------------

namespace IntDecl

namespace SyntaxError

/-
  Two errors tell the same but for the token that was found,
  and of that token a function tells the same.
-/
def AgreesIn
    {α : Type}
    (f : Token → α)
    (d e : SyntaxError) :
    Prop :=
  d.expected = e.expected ∧ d.stack = e.stack ∧
    f d.found = f e.found

end SyntaxError

namespace Phase

/- Halts that are the same lead to errors that agree. -/
theorem rel_error?_of_sameHalt
    {α : Type}
    {f : Token → α}
    {first second : Phase × Option Token}
    (hSame : SameHalt f first second)
    (marker : Token) :
    Option.Rel (SyntaxError.AgreesIn f)
      (first.1.error? (first.2.getD marker))
      (second.1.error? (second.2.getD marker)) := by
  rcases hSame with ⟨hPhase, hToken⟩
  have hFound :
      f (first.2.getD marker) = f (second.2.getD marker) := by
    rw [← Option.getD_map f, ← Option.getD_map f, hToken]
  rw [hPhase, error?, error?]
  split
  · exact .none
  · exact .some ⟨rfl, rfl, hFound⟩

end Phase

namespace TokenSequence

/- What folding keeps of a halt it keeps of an error. -/
theorem rel_syntaxError?_of_sameHalt
    {α : Type}
    {f : Token → α}
    {ts : TokenSequence}
    (hSame :
      Phase.SameHalt f (Phase.start.halt ts.body)
        (Phase.start.halt (Token.contract ts.body))) :
    Option.Rel (SyntaxError.AgreesIn f)
      ts.syntaxError? ts.fold.syntaxError? := by
  rw [syntaxError?_eq ts, syntaxError?_eq ts.fold, body_fold]
  exact Phase.rel_error?_of_sameHalt hSame _

/-
  A sequence and its folded form have both no error, or both
  an error that expects the same kinds, at a token of the same
  kind, in the same phrases. If the sequence was read from a
  source, both tokens also begin at the same position.
-/
theorem rel_syntaxError?_fold
    (ts : TokenSequence) :
    Option.Rel
        (SyntaxError.AgreesIn fun token => token.kind)
        ts.syntaxError? ts.fold.syntaxError? ∧
      ∀ src,
        Option.Rel
          (SyntaxError.AgreesIn fun token =>
            token.span.offset)
          (ofSource src).syntaxError?
          (ofSource src).fold.syntaxError? := by
  constructor
  · apply rel_syntaxError?_of_sameHalt
    apply Phase.sameHalt_contract _ (fun _ => True)
    · intro tokens others _ hTokens
      exact hTokens
    · intro before after lhs op rhs sum _ hWindow
      have hAddition :=
        (Token.window?_eq_some_iff.mp hWindow).1
      rw [hAddition.1, (Token.eq_of_window? hWindow).1]
    · trivial
  · intro src
    apply rel_syntaxError?_of_sameHalt
    apply Phase.sameHalt_contract _ Token.Ordered
    · intro tokens others hContracts hOrdered
      exact hContracts.ordered hOrdered
    · intro before after lhs op rhs sum hOrdered hWindow
      exact hOrdered.offset_of_window? hWindow
    · exact ordered_ofSource src

end TokenSequence

end IntDecl
