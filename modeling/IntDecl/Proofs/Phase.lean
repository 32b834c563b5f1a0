import IntDecl.Proofs.Derivation

/-
  This file reads programs with a counter in place of the
  grammar.

  Behind `int`, a name and `=`, operands and operators take
  turns, and all that has to be remembered is the number of
  groups that are open. The programs of the grammar are the
  lists of kinds that are read to the end in this way.

  Key definitions include:
    * `Phase`
    * `Phase.next?`
    * `Phase.read?`
    * `Phase.agenda`

  Key theorems include:
    * `Phase.read?_append`
    * `Phase.leads_agenda`
    * `Phase.allMetBy_agenda`
    * `Phase.read?_eq_finished_iff`
-/

------------------------------------------------------------
-- Phases
------------------------------------------------------------

namespace IntDecl

/-
  How far a program has been read: to its start, behind `int`
  or behind the name; to an operand or to what follows one,
  with some groups open; or behind the semicolon.
-/
inductive Phase where
| start
| typed
| named
| operand (depth : Nat)
| operator (depth : Nat)
| finished
deriving DecidableEq, Repr

namespace Phase

/- The phase after a token of a kind, if it fits. -/
def next? : Phase → TokenKind → Option Phase
| .start, .intKeyword => some .typed
| .typed, .identifier => some .named
| .named, .assign => some (.operand 0)
| .operand depth, .number => some (.operator depth)
| .operand depth, .lparen => some (.operand (depth + 1))
| .operator depth, .plus => some (.operand depth)
| .operator depth, .multiply => some (.operand depth)
| .operator (depth + 1), .rparen => some (.operator depth)
| .operator 0, .semicolon => some .finished
| _, _ => none

/- The phase after tokens of some kinds, if they fit. -/
def read? : Phase → List TokenKind → Option Phase
| phase, [] => some phase
| phase, kind :: kinds =>
    (phase.next? kind).bind fun next => next.read? kinds

@[simp] theorem read?_nil
    (phase : Phase) :
    phase.read? [] = some phase := rfl

@[simp] theorem read?_cons
    (phase : Phase)
    (kind : TokenKind)
    (kinds : List TokenKind) :
    phase.read? (kind :: kinds) =
      (phase.next? kind).bind fun next =>
        next.read? kinds := rfl

/- Kinds are read one part after the other. -/
theorem read?_append
    (phase : Phase)
    (first second : List TokenKind) :
    phase.read? (first ++ second) =
      (phase.read? first).bind fun next =>
        next.read? second := by
  induction first generalizing phase with
  | nil =>
      rfl
  | cons kind kinds ih =>
      rw [List.cons_append, read?_cons, read?_cons]
      cases phase.next? kind with
      | none =>
          rfl
      | some next =>
          exact ih next

end Phase

end IntDecl

------------------------------------------------------------
-- Phrases Are Read
------------------------------------------------------------

namespace IntDecl

namespace Phase

/-
  What reading makes of a phrase: a program is read from the
  start to the end, any other phrase as one operand.
-/
def Reads (kinds : List TokenKind) : NonTerminal → Prop
| .program => start.read? kinds = some .finished
| _ =>
    ∀ depth,
      (operand depth).read? kinds = some (.operator depth)

/- Operands behind operators are read at their depth. -/
theorem read?_repetition
    {depth : Nat}
    {sign : TokenKind}
    {others : List (List TokenKind)}
    (hSign :
      (operator depth).next? sign = some (.operand depth))
    (hOthers :
      ∀ other ∈ others,
        (operand depth).read? other =
          some (.operator depth)) :
    (operator depth).read? (others.flatMap (sign :: ·)) =
      some (.operator depth) := by
  induction others with
  | nil =>
      rfl
  | cons other others ih =>
      rcases List.forall_mem_cons.mp hOthers with
        ⟨hOther, hLater⟩
      rw [List.flatMap_cons, List.cons_append, read?_cons,
        hSign, Option.bind_some, read?_append, hOther,
        Option.bind_some]
      exact ih hLater

/- What the grammar derives as a phrase is read as one. -/
theorem reads_of_derives
    {n : NonTerminal}
    {kinds : List TokenKind}
    (hDerives : Derives n kinds) :
    Reads kinds n := by
  induction hDerives with
  | number =>
      intro depth
      rfl
  | group _ ih =>
      intro depth
      rw [List.cons_append, read?_cons, next?,
        Option.bind_some, read?_append, ih (depth + 1)]
      rfl
  | term _ _ ihFirst ihOthers =>
      intro depth
      rw [read?_append, ihFirst depth, Option.bind_some]
      exact read?_repetition rfl
        fun other hMem => ihOthers other hMem depth
  | expression _ _ ihFirst ihOthers =>
      intro depth
      rw [read?_append, ihFirst depth, Option.bind_some]
      exact read?_repetition rfl
        fun other hMem => ihOthers other hMem depth
  | @program body _ ih =>
      have hHeader :
          start.read? [.intKeyword, .identifier, .assign] =
            some (.operand 0) := rfl
      have hBody :
          (operand 0).read? body = some (.operator 0) :=
        ih 0
      rw [Reads, List.append_assoc, read?_append, hHeader,
        Option.bind_some, read?_append, hBody]
      rfl

end Phase

end IntDecl

------------------------------------------------------------
-- Agendas Of Phases
------------------------------------------------------------

namespace IntDecl

namespace Goal

/- The goals outside of an expression in some open groups. -/
def outside : Nat → List Goal
| 0 => [.token .semicolon, .close .program]
| depth + 1 =>
    [.token .rparen, .close .factor, .moreFactors,
      .close .term, .moreTerms, .close .expression] ++
      outside depth

end Goal

namespace Phase

/- What is left to be recognized in a phase. -/
def agenda : Phase → List Goal
| .start => [.phrase .program]
| .typed =>
    [.token .identifier, .token .assign,
      .phrase .expression] ++ Goal.outside 0
| .named =>
    [.token .assign, .phrase .expression] ++ Goal.outside 0
| .operand depth =>
    [.phrase .factor, .moreFactors, .close .term,
      .moreTerms, .close .expression] ++ Goal.outside depth
| .operator depth =>
    [.moreFactors, .close .term, .moreTerms,
      .close .expression] ++ Goal.outside depth
| .finished => []

end Phase

namespace Parser

/- An expression begins with an operand. -/
theorem leads_expression
    (goals : List Goal)
    (p : Parser) :
    Leads (.phrase .expression :: goals) p []
      ([.phrase .factor, .moreFactors, .close .term,
        .moreTerms, .close .expression] ++ goals) p := by
  apply Leads.replace rfl
  apply Leads.replace rfl
  exact .refl

/- A token that is no operator ends an expression. -/
theorem leads_operator
    {p : Parser}
    (hPlus : p.peek.kind ≠ .plus)
    (hMultiply : p.peek.kind ≠ .multiply)
    (goals : List Goal) :
    Leads
      ([.moreFactors, .close .term, .moreTerms,
        .close .expression] ++ goals) p [] goals p := by
  have hFactors :
      Goal.moreFactors.move p.peek.kind = .replace [] :=
    if_neg hMultiply
  have hTerms :
      Goal.moreTerms.move p.peek.kind = .replace [] :=
    if_neg hPlus
  apply Leads.replace hFactors
  apply Leads.replace rfl
  apply Leads.replace hTerms
  apply Leads.replace rfl
  exact .refl

end Parser

namespace Phase

/- A token that fits leads from one agenda to the next. -/
theorem leads_agenda
    {phase next : Phase}
    {p : Parser}
    (hNext : phase.next? p.peek.kind = some next) :
    Parser.Leads phase.agenda p [p.peek.kind] next.agenda
      p.advance := by
  generalize hKind : p.peek.kind = kind at hNext
  unfold next? at hNext
  split at hNext <;> cases hNext <;> rw [← hKind]
  case h_1 =>
    apply Parser.Leads.replace rfl
    exact Parser.leads_token_of_peek hKind _
  case h_2 =>
    exact Parser.leads_token_of_peek hKind _
  case h_3 =>
    have hToken := Parser.leads_token_of_peek hKind
      (.phrase .expression :: Goal.outside 0)
    exact hToken.trans (Parser.leads_expression _ _)
  case h_4 =>
    have hNumber :
        (Goal.phrase .factor).move p.peek.kind =
          .pass [.close .factor] :=
      if_pos hKind
    apply Parser.Leads.pass hNumber
    exact Parser.leads_close .factor _ _
  case h_5 =>
    have hGroup :
        (Goal.phrase .factor).move p.peek.kind =
          .pass [.phrase .expression, .token .rparen,
            .close .factor] := by
      rw [hKind]
      rfl
    apply Parser.Leads.pass hGroup
    exact Parser.leads_expression _ _
  case h_6 =>
    -- A plus sign ends the term that it comes after.
    have hEnds :
        Goal.moreFactors.move p.peek.kind = .replace [] := by
      rw [hKind]
      rfl
    have hPlus :
        Goal.moreTerms.move p.peek.kind =
          .pass [.phrase .term, .moreTerms] :=
      if_pos hKind
    apply Parser.Leads.replace hEnds
    apply Parser.Leads.replace rfl
    apply Parser.Leads.pass hPlus
    apply Parser.Leads.replace rfl
    exact .refl
  case h_7 =>
    have hMultiply :
        Goal.moreFactors.move p.peek.kind =
          .pass [.phrase .factor, .moreFactors] :=
      if_pos hKind
    apply Parser.Leads.pass hMultiply
    exact .refl
  case h_8 depth =>
    have hPlus : p.peek.kind ≠ .plus := by
      simp [hKind]
    have hMultiply : p.peek.kind ≠ .multiply := by
      simp [hKind]
    have hEnd := Parser.leads_operator hPlus hMultiply
      (Goal.outside (depth + 1))
    have hToken := Parser.leads_token_of_peek hKind
      (.close .factor :: (Phase.operator depth).agenda)
    have hClose := Parser.leads_close .factor
      (Phase.operator depth).agenda p.advance
    exact hEnd.trans (hToken.trans hClose)
  case h_9 =>
    have hPlus : p.peek.kind ≠ .plus := by
      simp [hKind]
    have hMultiply : p.peek.kind ≠ .multiply := by
      simp [hKind]
    have hEnd := Parser.leads_operator hPlus hMultiply
      (Goal.outside 0)
    have hToken := Parser.leads_token_of_peek hKind
      [.close .program]
    have hClose := Parser.leads_close .program [] p.advance
    exact hEnd.trans (hToken.trans hClose)

/- A token that fits continues what meets the next agenda. -/
theorem allMetBy_agenda_cons
    {phase next : Phase}
    {kind : TokenKind}
    {kinds : List TokenKind}
    (hNext : phase.next? kind = some next)
    (hMet : Goal.AllMetBy next.agenda kinds) :
    Goal.AllMetBy phase.agenda (kind :: kinds) := by
  have hLeads := leads_agenda (p := Parser.ofKinds [kind]) hNext
  exact hLeads.allMetBy hMet

/- What is read to the end meets the agenda of its phase. -/
theorem allMetBy_agenda
    {phase : Phase}
    {kinds : List TokenKind}
    (hRead : phase.read? kinds = some .finished) :
    Goal.AllMetBy phase.agenda kinds := by
  induction kinds generalizing phase with
  | nil =>
      cases hRead
      rfl
  | cons kind kinds ih =>
      rw [read?_cons, Option.bind_eq_some_iff] at hRead
      rcases hRead with ⟨next, hNext, hRest⟩
      exact allMetBy_agenda_cons hNext (ih hRest)

/- Programs are exactly what is read from start to end. -/
theorem read?_eq_finished_iff
    (kinds : List TokenKind) :
    start.read? kinds = some .finished ↔
      Derives .program kinds := by
  constructor
  · intro hRead
    exact
      (Goal.allMetBy_singleton_iff _ _).mp
        (allMetBy_agenda hRead)
  · exact reads_of_derives

end Phase

end IntDecl
