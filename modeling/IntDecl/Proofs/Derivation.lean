import IntDecl.Proofs.Lookahead

/-
  This file relates the moves of an agenda to the grammar.

  Every goal stands for a language, an agenda for the
  concatenation of the languages of its goals. What a chain
  of moves passes is in the language of its agenda, and a
  phrase of the grammar is passed as a whole wherever the
  token after it could not continue it.

  Key definitions include:
    * `Goal.MetBy`
    * `Goal.AllMetBy`
    * `NonTerminal.extensions`
    * `Parser.Recognizes`

  Key theorems include:
    * `Parser.Leads.allMetBy`
    * `Goal.exists_allMetBy`
    * `Parser.recognizes_of_derives`
-/

------------------------------------------------------------
-- Languages Of Goals
------------------------------------------------------------

namespace IntDecl

namespace Goal

/- The lists of kinds that meet a goal. -/
def MetBy : Goal → List TokenKind → Prop
| .token kind, kinds => kinds = [kind]
| .phrase n, kinds => Derives n kinds
| .moreTerms, kinds =>
    ∃ others : List (List TokenKind),
      (∀ other ∈ others, Derives .term other) ∧
        kinds = others.flatMap (.plus :: ·)
| .moreFactors, kinds =>
    ∃ others : List (List TokenKind),
      (∀ other ∈ others, Derives .factor other) ∧
        kinds = others.flatMap (.multiply :: ·)
| .close _, kinds => kinds = []

/- The lists of kinds that meet the goals of an agenda. -/
def AllMetBy : List Goal → List TokenKind → Prop
| [], kinds => kinds = []
| goal :: goals, kinds =>
    ∃ first rest, kinds = first ++ rest ∧
      goal.MetBy first ∧ AllMetBy goals rest

/- Two agendas are met one after the other. -/
theorem allMetBy_append_iff
    (goals more : List Goal)
    (kinds : List TokenKind) :
    AllMetBy (goals ++ more) kinds ↔
      ∃ first rest, kinds = first ++ rest ∧
        AllMetBy goals first ∧ AllMetBy more rest := by
  induction goals generalizing kinds with
  | nil =>
      constructor
      · intro hMore
        exact ⟨[], kinds, rfl, rfl, hMore⟩
      · intro hBoth
        rcases hBoth with ⟨first, rest, hKinds, hNil, hMore⟩
        change first = [] at hNil
        rw [hKinds, hNil]
        exact hMore
  | cons goal goals ih =>
      constructor
      · intro hMet
        rcases hMet with ⟨first, rest, hKinds, hGoal, hRest⟩
        rcases (ih rest).mp hRest with
          ⟨second, last, hSplit, hGoals, hMore⟩
        refine ⟨first ++ second, last, ?_, ?_, hMore⟩
        · rw [hKinds, hSplit, List.append_assoc]
        · exact ⟨first, second, rfl, hGoal, hGoals⟩
      · intro hBoth
        rcases hBoth with ⟨_, last, hKinds,
          ⟨first, second, hSplit, hGoal, hGoals⟩, hMore⟩
        refine ⟨first, second ++ last, ?_, hGoal, ?_⟩
        · rw [hKinds, hSplit, List.append_assoc]
        · exact (ih _).mpr ⟨second, last, rfl, hGoals, hMore⟩

/- An agenda of one goal is met as the goal is. -/
theorem allMetBy_singleton_iff
    (goal : Goal)
    (kinds : List TokenKind) :
    AllMetBy [goal] kinds ↔ goal.MetBy kinds := by
  constructor
  · intro hMet
    rcases hMet with ⟨first, rest, hKinds, hGoal, hNil⟩
    change rest = [] at hNil
    rw [hKinds, hNil, List.append_nil]
    exact hGoal
  · intro hGoal
    exact ⟨kinds, [], (List.append_nil _).symm, hGoal, rfl⟩

/- A token in front is met by its kind. -/
theorem allMetBy_token_iff
    (kind : TokenKind)
    (goals : List Goal)
    (kinds : List TokenKind) :
    AllMetBy (.token kind :: goals) kinds ↔
      ∃ rest, kinds = kind :: rest ∧ AllMetBy goals rest := by
  constructor
  · intro hMet
    rcases hMet with ⟨first, rest, hKinds, hToken, hGoals⟩
    change first = [kind] at hToken
    rw [hToken] at hKinds
    exact ⟨rest, hKinds, hGoals⟩
  · intro hRest
    rcases hRest with ⟨rest, hKinds, hGoals⟩
    exact ⟨[kind], rest, hKinds, rfl, hGoals⟩

/- The end of a phrase in front is met without a token. -/
theorem allMetBy_close_iff
    (n : NonTerminal)
    (goals : List Goal)
    (kinds : List TokenKind) :
    AllMetBy (.close n :: goals) kinds ↔
      AllMetBy goals kinds := by
  constructor
  · intro hMet
    rcases hMet with ⟨first, rest, hKinds, hClose, hGoals⟩
    change first = [] at hClose
    rw [hKinds, hClose]
    exact hGoals
  · intro hGoals
    exact ⟨[], kinds, rfl, rfl, hGoals⟩

/- What meets a goal before the end of a phrase meets it. -/
theorem metBy_of_closed
    {goal : Goal}
    {n : NonTerminal}
    {kinds : List TokenKind}
    (hMet : AllMetBy [goal, .close n] kinds) :
    goal.MetBy kinds := by
  rcases hMet with ⟨first, rest, hKinds, hGoal, hClose⟩
  change AllMetBy [.close n] rest at hClose
  rw [allMetBy_close_iff] at hClose
  change rest = [] at hClose
  rw [hKinds, hClose, List.append_nil]
  exact hGoal

/- Operands behind a sign, one of them in front. -/
theorem metBy_more_cons
    {operand : NonTerminal}
    {sign : TokenKind}
    {kinds : List TokenKind}
    {goal : Goal}
    (hGoal :
      ∀ kinds, goal.MetBy kinds ↔
        ∃ others : List (List TokenKind),
          (∀ other ∈ others, Derives operand other) ∧
            kinds = others.flatMap (sign :: ·))
    (hMet : AllMetBy [.phrase operand, goal] kinds) :
    goal.MetBy (sign :: kinds) := by
  rcases hMet with ⟨first, _, hKinds, hFirst, hMore⟩
  change Derives operand first at hFirst
  change AllMetBy [goal] _ at hMore
  rw [allMetBy_singleton_iff, hGoal] at hMore
  rcases hMore with ⟨others, hOthers, hRest⟩
  rw [hGoal]
  refine ⟨first :: others, ?_, ?_⟩
  · exact List.forall_mem_cons.mpr ⟨hFirst, hOthers⟩
  · rw [hKinds, hRest, List.flatMap_cons, List.cons_append]

end Goal

end IntDecl

------------------------------------------------------------
-- Moves And Languages
------------------------------------------------------------

namespace IntDecl

namespace Goal

/- What meets the goals in place of another goal meets it. -/
theorem metBy_of_replace
    {goal : Goal}
    {next : TokenKind}
    {new : List Goal}
    {kinds : List TokenKind}
    (hMove : goal.move next = .replace new)
    (hNew : AllMetBy new kinds) :
    goal.MetBy kinds := by
  rcases move_eq_replace hMove with
    ⟨n, hGoal, hEq⟩ | ⟨hGoal, _, hEq⟩ | ⟨hGoal, _, hEq⟩ |
      ⟨hGoal, hEq⟩ | ⟨hGoal, hEq⟩ | ⟨hGoal, hEq⟩
  · subst hGoal hEq
    exact hNew
  · subst hGoal hEq
    exact ⟨[], by simp, hNew⟩
  · subst hGoal hEq
    exact ⟨[], by simp, hNew⟩
  · subst hGoal hEq
    simp only [allMetBy_token_iff] at hNew
    rcases hNew with ⟨_, hInt, _, hName, _, hAssign, body,
      rest, hBody, hExpression, hEnd⟩
    change Derives .expression body at hExpression
    change
      AllMetBy [.token .semicolon, .close .program] rest
        at hEnd
    rw [allMetBy_token_iff] at hEnd
    rcases hEnd with ⟨_, hSemicolon, hClose⟩
    rw [allMetBy_close_iff] at hClose
    change _ = [] at hClose
    rw [hInt, hName, hAssign, hBody, hSemicolon, hClose]
    exact Derives.program hExpression
  · subst hGoal hEq
    rcases hNew with ⟨first, _, hKinds, hFirst, hMore⟩
    rcases metBy_of_closed hMore with
      ⟨others, hOthers, hRest⟩
    rw [hKinds, hRest]
    exact Derives.expression hFirst hOthers
  · subst hGoal hEq
    rcases hNew with ⟨first, _, hKinds, hFirst, hMore⟩
    rcases metBy_of_closed hMore with
      ⟨others, hOthers, hRest⟩
    rw [hKinds, hRest]
    exact Derives.term hFirst hOthers

/-
  A token before what meets the goals that follow it meets
  the goal that took the token.
-/
theorem metBy_of_pass
    {goal : Goal}
    {next : TokenKind}
    {new : List Goal}
    {kinds : List TokenKind}
    (hMove : goal.move next = .pass new)
    (hNew : AllMetBy new kinds) :
    goal.MetBy (next :: kinds) := by
  rcases move_eq_pass hMove with
    ⟨hGoal, hEq⟩ | ⟨hGoal, hNext, hEq⟩ |
      ⟨hGoal, hNext, hEq⟩ | ⟨hGoal, hNext, hEq⟩ |
      ⟨hGoal, hNext, hEq⟩
  · subst hGoal hEq
    have hKinds : kinds = [] := hNew
    rw [hKinds]
    rfl
  · subst hGoal hNext hEq
    exact metBy_more_cons (fun _ => Iff.rfl) hNew
  · subst hGoal hNext hEq
    exact metBy_more_cons (fun _ => Iff.rfl) hNew
  · subst hGoal hNext hEq
    rw [allMetBy_close_iff] at hNew
    change kinds = [] at hNew
    rw [hNew]
    exact Derives.number
  · subst hGoal hNext hEq
    rcases hNew with ⟨inner, rest, hKinds, hInner, hEnd⟩
    change
      AllMetBy [.token .rparen, .close .factor] rest at hEnd
    rw [allMetBy_token_iff] at hEnd
    rcases hEnd with ⟨_, hRight, hClose⟩
    rw [allMetBy_close_iff] at hClose
    change _ = [] at hClose
    rw [hKinds, hRight, hClose]
    exact Derives.group hInner

/- An agenda is met as the agenda is that takes its place. -/
theorem allMetBy_of_replace
    {goal : Goal}
    {goals : List Goal}
    {kinds : List TokenKind}
    (next : TokenKind)
    (new : List Goal)
    (hMove : goal.move next = .replace new)
    (hMet : AllMetBy (new ++ goals) kinds) :
    AllMetBy (goal :: goals) kinds := by
  rcases (allMetBy_append_iff _ _ _).mp hMet with
    ⟨first, rest, hSplit, hNew, hGoals⟩
  exact
    ⟨first, rest, hSplit, metBy_of_replace hMove hNew,
      hGoals⟩

/-
  An agenda is met by a token that it takes, followed by what
  meets the agenda behind the token.
-/
theorem allMetBy_of_pass
    {goal : Goal}
    {goals : List Goal}
    {kinds : List TokenKind}
    (next : TokenKind)
    (new : List Goal)
    (hMove : goal.move next = .pass new)
    (hMet : AllMetBy (new ++ goals) kinds) :
    AllMetBy (goal :: goals) (next :: kinds) := by
  rcases (allMetBy_append_iff _ _ _).mp hMet with
    ⟨first, rest, hSplit, hNew, hGoals⟩
  exact
    ⟨next :: first, rest, congrArg (next :: ·) hSplit,
      metBy_of_pass hMove hNew, hGoals⟩

end Goal

namespace Parser

/-
  What a chain of moves passes, with what meets the goals
  that it leaves, meets the goals that it started from.
-/
theorem Leads.allMetBy
    {goals last : List Goal}
    {p q : Parser}
    {used kinds : List TokenKind}
    (hLeads : Leads goals p used last q)
    (hLast : Goal.AllMetBy last kinds) :
    Goal.AllMetBy goals (used ++ kinds) := by
  induction hLeads with
  | refl =>
      exact hLast
  | replace hMove _ ih =>
      exact Goal.allMetBy_of_replace _ _ hMove (ih hLast)
  | pass hMove _ ih =>
      exact Goal.allMetBy_of_pass _ _ hMove (ih hLast)

end Parser

end IntDecl

------------------------------------------------------------
-- Goals Can Be Met
------------------------------------------------------------

namespace IntDecl

/- A factor alone is a term. -/
theorem Derives.term_of_factor
    {kinds : List TokenKind}
    (hFactor : Derives .factor kinds) :
    Derives .term kinds := by
  have hNone :
      ∀ other ∈ ([] : List (List TokenKind)),
        Derives .factor other :=
    List.forall_mem_nil _
  simpa using Derives.term hFactor hNone

/- A term alone is an expression. -/
theorem Derives.expression_of_term
    {kinds : List TokenKind}
    (hTerm : Derives .term kinds) :
    Derives .expression kinds := by
  have hNone :
      ∀ other ∈ ([] : List (List TokenKind)),
        Derives .term other :=
    List.forall_mem_nil _
  simpa using Derives.expression hTerm hNone

namespace Goal

/- Each kind that a goal expects can begin what meets it. -/
theorem exists_metBy_of_mem_expected
    {goal : Goal}
    {next kind : TokenKind}
    {expected : List TokenKind}
    {new : List Goal}
    (hMove : goal.move next = .reject expected new)
    (hMem : kind ∈ expected) :
    ∃ kinds, goal.MetBy (kind :: kinds) := by
  rcases move_eq_reject hMove with
    ⟨_, hGoal, _, hExpected, _⟩ |
      ⟨hGoal, _, _, hExpected, _⟩
  · subst hGoal hExpected
    rw [List.mem_singleton] at hMem
    exact ⟨[], congrArg ([·]) hMem⟩
  · subst hGoal hExpected
    rw [List.mem_cons, List.mem_singleton] at hMem
    rcases hMem with hNumber | hGroup
    · subst hNumber
      exact ⟨[], .number⟩
    · subst hGroup
      have hInner : Derives .expression [.number] :=
        .expression_of_term (.term_of_factor .number)
      exact ⟨_, Derives.group hInner⟩

/- Every goal can be met. -/
theorem exists_metBy
    (goal : Goal) :
    ∃ kinds, goal.MetBy kinds := by
  have hExpression : Derives .expression [.number] :=
    .expression_of_term (.term_of_factor .number)
  cases goal with
  | token kind =>
      exact ⟨[kind], rfl⟩
  | phrase n =>
      cases n with
      | program =>
          exact ⟨_, Derives.program hExpression⟩
      | expression =>
          exact ⟨_, hExpression⟩
      | term =>
          exact ⟨_, .term_of_factor .number⟩
      | factor =>
          exact ⟨_, .number⟩
  | moreTerms =>
      exact ⟨[], [], by simp, rfl⟩
  | moreFactors =>
      exact ⟨[], [], by simp, rfl⟩
  | close n =>
      exact ⟨[], rfl⟩

/- Every agenda can be met. -/
theorem exists_allMetBy
    (goals : List Goal) :
    ∃ kinds, AllMetBy goals kinds := by
  induction goals with
  | nil =>
      exact ⟨[], rfl⟩
  | cons goal goals ih =>
      rcases exists_metBy goal with ⟨first, hFirst⟩
      rcases ih with ⟨rest, hRest⟩
      exact ⟨first ++ rest, first, rest, rfl, hFirst, hRest⟩

end Goal

end IntDecl

------------------------------------------------------------
-- Phrases Are Passed
------------------------------------------------------------

namespace IntDecl

namespace NonTerminal

/- The kinds that continue a phrase after its end. -/
def extensions : NonTerminal → List TokenKind
| .program => []
| .expression => [.plus, .multiply]
| .term => [.multiply]
| .factor => []

end NonTerminal

namespace Parser

/- The position that a chain reaches is known beforehand. -/
theorem Leads.to_skip
    {goals last : List Goal}
    {p q : Parser}
    {used : List TokenKind}
    (hLeads : Leads goals p used last q) :
    Leads goals p used last (p.skip used.length) := by
  rw [← hLeads.eq_skip]
  exact hLeads

/-
  Kinds are recognized as a phrase when the goal of the phrase
  passes them wherever they come next and the token after
  them does not continue the phrase.
-/
def Recognizes
    (n : NonTerminal)
    (kinds : List TokenKind) :
    Prop :=
  ∀ goals p,
    kinds <+: p.kinds →
      (p.skip kinds.length).peek.kind ∉ n.extensions →
        Leads (.phrase n :: goals) p kinds goals
          (p.skip kinds.length)

/- A goal that asks for a token passes it when it is seen. -/
theorem leads_token_of_peek
    {p : Parser}
    {kind : TokenKind}
    (hKind : p.peek.kind = kind)
    (goals : List Goal) :
    Leads (.token kind :: goals) p [p.peek.kind] goals
      p.advance :=
  .pass (if_pos hKind) .refl

/- A goal that asks for a token passes it. -/
theorem leads_token
    {p : Parser}
    {kind : TokenKind}
    {kinds : List TokenKind}
    (goals : List Goal)
    (hPrefix : kind :: kinds <+: p.kinds) :
    Leads (.token kind :: goals) p [kind] goals
      p.advance := by
  have hKind := (peek_of_prefix_kinds hPrefix).1
  have hPass := leads_token_of_peek hKind goals
  rwa [hKind] at hPass

/- A phrase that is complete is closed. -/
theorem leads_close
    (n : NonTerminal)
    (goals : List Goal)
    (p : Parser) :
    Leads (.close n :: goals) p [] goals p := by
  have hMove :
      (Goal.close n).move p.peek.kind = .replace [] := rfl
  exact .replace hMove .refl

/-
  Operands behind their signs are passed one after the other.
  The token after the last of them may be neither the sign
  nor a token that continues an operand.
-/
theorem leads_repetition
    {goal : Goal}
    {sign : TokenKind}
    {operand : NonTerminal}
    {others : List (List TokenKind)}
    (hPass : goal.move sign = .pass [.phrase operand, goal])
    (hSkip :
      ∀ next, next ≠ sign → goal.move next = .replace [])
    (hSign : sign ∉ operand.extensions)
    (hOthers : ∀ other ∈ others, Recognizes operand other)
    (goals : List Goal)
    (p : Parser)
    (hPrefix : others.flatMap (sign :: ·) <+: p.kinds)
    (hEnd :
      (p.skip (others.flatMap (sign :: ·)).length).peek.kind
        ≠ sign)
    (hNext :
      (p.skip (others.flatMap (sign :: ·)).length).peek.kind
        ∉ operand.extensions) :
    Leads (goal :: goals) p (others.flatMap (sign :: ·))
      goals
      (p.skip (others.flatMap (sign :: ·)).length) := by
  induction others generalizing p with
  | nil =>
      exact .replace (hSkip _ hEnd) .refl
  | cons other others ih =>
      rcases List.forall_mem_cons.mp hOthers with
        ⟨hOther, hLater⟩
      rw [List.flatMap_cons, List.cons_append]
        at hPrefix hEnd hNext ⊢
      have hSeen := peek_of_prefix_kinds hPrefix
      have hParts := append_prefix_kinds_iff.mp hSeen.2
      rw [List.length_cons, skip_succ, List.length_append,
        skip_add] at hEnd hNext ⊢
      have hBetween :
          (p.advance.skip other.length).peek.kind ∉
            operand.extensions := by
        cases others with
        | nil =>
            exact hNext
        | cons second others =>
            rw [(peek_of_prefix_kinds hParts.2).1]
            exact hSign
      have hMove : goal.move p.peek.kind =
          .pass [.phrase operand, goal] := by
        rw [hSeen.1, hPass]
      have hFirst := hOther (goal :: goals) p.advance
        hParts.1 hBetween
      have hRest := ih hLater (p.advance.skip other.length)
        hParts.2 hEnd hNext
      rw [← hSeen.1] at hRest ⊢
      exact .pass hMove (hFirst.trans hRest)

/-
  A phrase of operands with signs between them is passed when
  its operands are.
-/
theorem recognizes_operation
    {n operand : NonTerminal}
    {goal : Goal}
    {sign : TokenKind}
    {first : List TokenKind}
    {others : List (List TokenKind)}
    (hPhrase :
      ∀ next, (Goal.phrase n).move next =
        .replace [.phrase operand, goal, .close n])
    (hPass : goal.move sign = .pass [.phrase operand, goal])
    (hSkip :
      ∀ next, next ≠ sign → goal.move next = .replace [])
    (hSign : sign ∉ operand.extensions)
    (hExtensions :
      n.extensions = sign :: operand.extensions)
    (hFirst : Recognizes operand first)
    (hOthers : ∀ other ∈ others, Recognizes operand other) :
    Recognizes n (first ++ others.flatMap (sign :: ·)) := by
  intro goals p hPrefix hNext
  have hParts := append_prefix_kinds_iff.mp hPrefix
  rw [List.length_append, skip_add, hExtensions,
    List.mem_cons, not_or] at hNext
  rw [List.length_append, skip_add]
  have hBetween :
      (p.skip first.length).peek.kind ∉
        operand.extensions := by
    cases others with
    | nil =>
        exact hNext.2
    | cons other others =>
        rw [(peek_of_prefix_kinds hParts.2).1]
        exact hSign
  have hOperand := hFirst (goal :: .close n :: goals) p
    hParts.1 hBetween
  have hRest := leads_repetition hPass hSkip hSign hOthers
    (.close n :: goals) (p.skip first.length) hParts.2
    hNext.1 hNext.2
  have hAll :=
    hOperand.trans (hRest.trans (leads_close n goals _))
  rw [List.append_nil] at hAll
  exact .replace (hPhrase _) hAll

/- What the grammar derives as a phrase is passed as one. -/
theorem recognizes_of_derives
    {n : NonTerminal}
    {kinds : List TokenKind}
    (hDerives : Derives n kinds) :
    Recognizes n kinds := by
  induction hDerives with
  | number =>
      intro goals p hPrefix _
      have hKind := (peek_of_prefix_kinds hPrefix).1
      have hMove :
          (Goal.phrase .factor).move p.peek.kind =
            .pass [.close .factor] := by
        rw [hKind]
        rfl
      rw [← hKind]
      exact .pass hMove (leads_close .factor goals p.advance)
  | @group inner hInner ih =>
      intro goals p hPrefix _
      have hSeen := peek_of_prefix_kinds hPrefix
      have hParts := append_prefix_kinds_iff.mp hSeen.2
      have hAfter := (peek_of_prefix_kinds hParts.2).1
      have hBody := ih (.token .rparen :: .close .factor ::
        goals) p.advance hParts.1
        (by simp [hAfter, NonTerminal.extensions])
      have hClose := leads_token (.close .factor :: goals)
        hParts.2
      have hAll :=
        hBody.trans
          (hClose.trans (leads_close .factor goals _))
      have hMove :
          (Goal.phrase .factor).move p.peek.kind =
            .pass [.phrase .expression, .token .rparen,
              .close .factor] := by
        rw [hSeen.1]
        rfl
      rw [List.append_nil] at hAll
      apply Leads.to_skip
      rw [List.cons_append, ← hSeen.1]
      exact .pass hMove hAll
  | term hFirst hOthers ihFirst ihOthers =>
      exact recognizes_operation (fun _ => rfl) rfl
        (fun _ hNext => if_neg hNext) (by decide) rfl
        ihFirst ihOthers
  | expression hFirst hOthers ihFirst ihOthers =>
      exact recognizes_operation (fun _ => rfl) rfl
        (fun _ hNext => if_neg hNext) (by decide) rfl
        ihFirst ihOthers
  | @program body hBody ih =>
      intro goals p hPrefix _
      simp only [List.cons_append, List.nil_append]
        at hPrefix ⊢
      have hInt := peek_of_prefix_kinds hPrefix
      have hName := peek_of_prefix_kinds hInt.2
      have hAssign := peek_of_prefix_kinds hName.2
      have hParts := append_prefix_kinds_iff.mp hAssign.2
      have hAfter := (peek_of_prefix_kinds hParts.2).1
      have hBody := ih (.token .semicolon ::
        .close .program :: goals) p.advance.advance.advance
        hParts.1 (by simp [hAfter, NonTerminal.extensions])
      have hAll :=
        (leads_token _ hPrefix).trans
          ((leads_token _ hInt.2).trans
            ((leads_token _ hName.2).trans
              (hBody.trans
                ((leads_token _ hParts.2).trans
                  (leads_close .program goals _)))))
      exact (Leads.replace rfl hAll).to_skip

end Parser

end IntDecl
