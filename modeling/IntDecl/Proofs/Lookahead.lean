import IntDecl.Proofs.Agenda
import IntDecl.Proofs.Position

/-
  This file states what a chain of moves looks at: the kinds
  of the tokens that it passes and the kind of the token at
  which it ends.

  Key definitions include:
    * `Goal.Arises`

  Key theorems include:
    * `Goal.move_of_ne_sign`
    * `Goal.move_of_not_mem_expected`
    * `Parser.Leads.eq_skip`
    * `Parser.Leads.used_prefix`
    * `Parser.Leads.eq_before`
    * `Parser.Leads.transfer`
-/

------------------------------------------------------------
-- Goals That Arise
------------------------------------------------------------

namespace IntDecl

namespace Goal

/-
  The goals to which the recognition of phrases leads. None
  of them asks for the end mark or for an operator.
-/
def Arises : Goal → Prop
| .token kind =>
    kind ∈ [TokenKind.intKeyword, .identifier, .assign,
      .rparen, .semicolon]
| _ => True

/- Goals that take the place of others arise. -/
theorem arises_of_replace
    {goal : Goal}
    {next : TokenKind}
    {new : List Goal}
    (hMove : goal.move next = .replace new) :
    ∀ g ∈ new, g.Arises := by
  rcases move_eq_replace hMove with
    ⟨_, _, hNew⟩ | ⟨_, _, hNew⟩ | ⟨_, _, hNew⟩ |
      ⟨_, hNew⟩ | ⟨_, hNew⟩ | ⟨_, hNew⟩ <;>
    simp [hNew, Arises]

/- Goals that follow a token arise. -/
theorem arises_of_pass
    {goal : Goal}
    {next : TokenKind}
    {new : List Goal}
    (hMove : goal.move next = .pass new) :
    ∀ g ∈ new, g.Arises := by
  rcases move_eq_pass hMove with
    ⟨_, hNew⟩ | ⟨_, _, hNew⟩ | ⟨_, _, hNew⟩ |
      ⟨_, _, hNew⟩ | ⟨_, _, hNew⟩ <;>
    simp [hNew, Arises]

/- An agenda arises when all its goals arise. -/
theorem arises_append
    {goal : Goal}
    {goals new : List Goal}
    (hNew : ∀ g ∈ new, g.Arises)
    (hGoals : ∀ g ∈ goal :: goals, g.Arises) :
    ∀ g ∈ new ++ goals, g.Arises := by
  intro g hMem
  rcases List.mem_append.mp hMem with hFirst | hLater
  · exact hNew g hFirst
  · exact hGoals g (List.mem_cons_of_mem _ hLater)

/- No goal that arises takes the end mark. -/
theorem ne_endOfInput_of_pass
    {goal : Goal}
    {next : TokenKind}
    {new : List Goal}
    (hArises : goal.Arises)
    (hMove : goal.move next = .pass new) :
    next ≠ .endOfInput := by
  rintro rfl
  rcases move_eq_pass hMove with
    ⟨hGoal, _⟩ | ⟨_, hNext, _⟩ | ⟨_, hNext, _⟩ |
      ⟨_, hNext, _⟩ | ⟨_, hNext, _⟩
  · rw [hGoal] at hArises
    simp [Arises] at hArises
  all_goals cases hNext

/- No goal that arises expects an operator. -/
theorem ne_sign_of_mem_expected
    {goal : Goal}
    {next kind : TokenKind}
    {expected : List TokenKind}
    {new : List Goal}
    (hArises : goal.Arises)
    (hMove : goal.move next = .reject expected new)
    (hMem : kind ∈ expected) :
    kind ≠ .plus ∧ kind ≠ .multiply := by
  rcases move_eq_reject hMove with
    ⟨_, hGoal, _, hExpected, _⟩ | ⟨_, _, _, hExpected, _⟩
  · rw [hExpected, List.mem_singleton] at hMem
    rw [hGoal, ← hMem] at hArises
    constructor <;>
      (rintro rfl; simp [Arises] at hArises)
  · rw [hExpected] at hMem
    constructor <;>
      (rintro rfl; simp at hMem)

end Goal

end IntDecl

------------------------------------------------------------
-- Moves Before Other Tokens
------------------------------------------------------------

namespace IntDecl

namespace Goal

/-
  A goal that gives way before a token gives way before every
  token but an operator.
-/
theorem move_of_ne_sign
    {goal : Goal}
    {next other : TokenKind}
    {new : List Goal}
    (hMove : goal.move next = .replace new)
    (hPlus : other ≠ .plus)
    (hMultiply : other ≠ .multiply) :
    goal.move other = .replace new := by
  rcases move_eq_replace hMove with
    ⟨n, hGoal, hNew⟩ | ⟨hGoal, _, hNew⟩ |
      ⟨hGoal, _, hNew⟩ | ⟨hGoal, hNew⟩ |
      ⟨hGoal, hNew⟩ | ⟨hGoal, hNew⟩ <;>
    simp [hGoal, hNew, move, hPlus, hMultiply]

/-
  A goal that rejects a token rejects every token that is not
  of an expected kind.
-/
theorem move_of_not_mem_expected
    {goal : Goal}
    {next other : TokenKind}
    {expected : List TokenKind}
    {new : List Goal}
    (hMove : goal.move next = .reject expected new)
    (hOther : other ∉ expected) :
    goal.move other = .reject expected new := by
  rcases move_eq_reject hMove with
    ⟨kind, hGoal, _, hExpected, hNew⟩ |
      ⟨hGoal, _, _, hExpected, hNew⟩
  · subst hGoal hExpected hNew
    rw [List.mem_singleton] at hOther
    simp [move, hOther]
  · subst hGoal hExpected hNew
    simp only [List.mem_cons, List.not_mem_nil,
      or_false, not_or] at hOther
    simp [move, hOther]

/- A token that is rejected is not of an expected kind. -/
theorem not_mem_expected
    {goal : Goal}
    {next : TokenKind}
    {expected : List TokenKind}
    {new : List Goal}
    (hMove : goal.move next = .reject expected new) :
    next ∉ expected := by
  rcases move_eq_reject hMove with
    ⟨_, _, hKind, hExpected, _⟩ |
      ⟨_, hNumber, hGroup, hExpected, _⟩
  · simpa [hExpected] using hKind
  · simp [hExpected, hNumber, hGroup]

end Goal

end IntDecl

------------------------------------------------------------
-- Tokens That Are Passed
------------------------------------------------------------

namespace IntDecl

namespace Parser

/- A chain of moves skips the tokens that it passes. -/
theorem Leads.eq_skip
    {goals last : List Goal}
    {p q : Parser}
    {used : List TokenKind}
    (hLeads : Leads goals p used last q) :
    q = p.skip used.length := by
  induction hLeads with
  | refl =>
      rfl
  | replace _ _ ih =>
      exact ih
  | pass _ _ ih =>
      exact ih

/- The first token that is passed is seen from the start. -/
theorem Leads.kind_peek_of_cons
    {goals last : List Goal}
    {p q : Parser}
    {kind : TokenKind}
    {used : List TokenKind}
    (hLeads : Leads goals p (kind :: used) last q) :
    p.peek.kind = kind := by
  generalize hUsed : kind :: used = all at hLeads
  induction hLeads with
  | refl =>
      cases hUsed
  | replace _ _ ih =>
      exact ih hUsed
  | pass _ _ _ =>
      cases hUsed
      rfl

/- The goals that a chain of moves reaches arise. -/
theorem Leads.arises
    {goals last : List Goal}
    {p q : Parser}
    {used : List TokenKind}
    (hLeads : Leads goals p used last q)
    (hArises : ∀ g ∈ goals, g.Arises) :
    ∀ g ∈ last, g.Arises := by
  induction hLeads with
  | refl =>
      exact hArises
  | replace hMove _ ih =>
      exact ih (Goal.arises_append
        (Goal.arises_of_replace hMove) hArises)
  | pass hMove _ ih =>
      exact ih (Goal.arises_append
        (Goal.arises_of_pass hMove) hArises)

/- A chain of moves passes the tokens that come next. -/
theorem Leads.used_prefix
    {goals last : List Goal}
    {p q : Parser}
    {used : List TokenKind}
    (hLeads : Leads goals p used last q)
    (hArises : ∀ g ∈ goals, g.Arises) :
    used <+: p.kinds := by
  induction hLeads with
  | refl =>
      exact List.nil_prefix
  | replace hMove _ ih =>
      exact ih (Goal.arises_append
        (Goal.arises_of_replace hMove) hArises)
  | pass hMove _ ih =>
      have hNext := Goal.ne_endOfInput_of_pass
        (hArises _ List.mem_cons_self) hMove
      apply cons_prefix_of_peek hNext
      exact ih (Goal.arises_append
        (Goal.arises_of_pass hMove) hArises)

/-
  A chain of moves that starts within a sequence ends within
  it, behind the tokens that it passes.
-/
theorem Leads.eq_before
    {ts : TokenSequence}
    {cursor : Nat}
    {goals last : List Goal}
    {q : Parser}
    {used : List TokenKind}
    (hLeads : Leads goals (before ts cursor) used last q)
    (hArises : ∀ g ∈ goals, g.Arises)
    (hCursor : cursor ≤ ts.body.length) :
    cursor + used.length ≤ ts.body.length ∧
      q = before ts (cursor + used.length) := by
  have hUsed := (hLeads.used_prefix hArises).length_le
  rw [kinds_before, List.length_drop, Token.kinds,
    List.length_map] at hUsed
  have hLength : cursor + used.length ≤ ts.body.length := by
    omega
  refine ⟨hLength, ?_⟩
  rw [hLeads.eq_skip, skip_before hLength]

end Parser

end IntDecl

------------------------------------------------------------
-- The Same Moves Elsewhere
------------------------------------------------------------

namespace IntDecl

namespace Parser

/-
  A chain of moves can be made wherever the tokens that it
  passes come next. The token after them may be any other
  token, except that it may not become an operator: a sum or
  product that has ended would go on.
-/
theorem Leads.transfer
    {goals last : List Goal}
    {p q r : Parser}
    {used : List TokenKind}
    (hLeads : Leads goals p used last q)
    (hUsed : used <+: r.kinds)
    (hNext :
      (r.skip used.length).peek.kind = q.peek.kind ∨
        ((r.skip used.length).peek.kind ≠ .plus ∧
          (r.skip used.length).peek.kind ≠ .multiply)) :
    Leads goals r used last (r.skip used.length) := by
  induction hLeads generalizing r with
  | refl =>
      exact .refl
  | @replace goal goals new last p q used hMove hRest ih =>
      refine .replace ?_ (ih hUsed hNext)
      cases used with
      | cons kind used =>
          rw [(peek_of_prefix_kinds hUsed).1,
            ← hRest.kind_peek_of_cons]
          exact hMove
      | nil =>
          have hSame : q = p := hRest.eq_skip
          rw [hSame] at hNext
          rcases hNext with hEqual | ⟨hPlus, hMultiply⟩
          · rw [← hEqual] at hMove
            exact hMove
          · exact Goal.move_of_ne_sign hMove hPlus hMultiply
  | pass hMove hRest ih =>
      have hSeen := peek_of_prefix_kinds hUsed
      rw [← hSeen.1]
      refine .pass ?_ (ih hSeen.2 hNext)
      rw [hSeen.1]
      exact hMove

end Parser

end IntDecl
