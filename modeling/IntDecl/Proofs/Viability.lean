import IntDecl.Proofs.Recognition
import IntDecl.Token.Stream

/-
  This file proves that a syntax error stands at the first
  token that no program could have there, and that it names
  the kinds that a program could have there.

  Operators are never named: where a sum or a product could
  go on, an error names what could end it.

  Key theorems include:
    * `Parser.Leads.exists_derives`
    * `Parser.Leads.not_derives`
    * `TokenSequence.viable_of_syntaxError?`
-/

------------------------------------------------------------
-- Completions
------------------------------------------------------------

namespace IntDecl

namespace Parser

/- What has been passed can be completed to the phrase. -/
theorem Leads.exists_derives
    {n : NonTerminal}
    {last : List Goal}
    {p q : Parser}
    {used : List TokenKind}
    (hLeads : Leads [.phrase n] p used last q) :
    ∃ further, Derives n (used ++ further) := by
  rcases Goal.exists_allMetBy last with ⟨further, hLast⟩
  have hAll := hLeads.allMetBy hLast
  exact ⟨further, (Goal.allMetBy_singleton_iff _ _).mp hAll⟩

/-
  What has been passed can be completed by each of the kinds
  that are expected after it.
-/
theorem Leads.exists_derives_of_mem
    {n : NonTerminal}
    {goal : Goal}
    {rest new : List Goal}
    {p q : Parser}
    {used expected : List TokenKind}
    {next kind : TokenKind}
    (hLeads : Leads [.phrase n] p used (goal :: rest) q)
    (hMove : goal.move next = .reject expected new)
    (hMem : kind ∈ expected) :
    ∃ further, Derives n (used ++ kind :: further) := by
  rcases Goal.exists_metBy_of_mem_expected hMove hMem with
    ⟨first, hGoal⟩
  rcases Goal.exists_allMetBy rest with ⟨later, hRest⟩
  have hAll := hLeads.allMetBy
    ⟨kind :: first, later, rfl, hGoal, hRest⟩
  exact
    ⟨first ++ later,
      (Goal.allMetBy_singleton_iff _ _).mp hAll⟩

/-
  What has been passed cannot be completed by any other kind:
  recognition would come to the same goal and be rejected,
  though the grammar derives the phrase. The kind must not be
  an operator, as recognition could take a different way.
-/
theorem Leads.not_derives
    {n : NonTerminal}
    {goal : Goal}
    {rest new : List Goal}
    {p q : Parser}
    {used expected : List TokenKind}
    {kind : TokenKind}
    (hLeads : Leads [.phrase n] p used (goal :: rest) q)
    (hMove : goal.move q.peek.kind = .reject expected new)
    (hKind : kind ∉ expected)
    (hNext :
      kind = q.peek.kind ∨ (kind ≠ .plus ∧ kind ≠ .multiply))
    (further : List TokenKind) :
    ¬ Derives n (used ++ kind :: further) := by
  intro hDerives
  let all := used ++ kind :: further
  let r := ofKinds all
  have hKinds : r.kinds = all := kinds_ofKinds all
  have hUsed : used <+: r.kinds := by
    rw [hKinds]
    exact List.prefix_append _ _
  have hSeen : (r.skip used.length).peek.kind = kind := by
    rw [kind_peek, kinds_skip, hKinds, List.drop_left]
    rfl
  rw [← hSeen] at hKind hNext
  have hRejected :=
    (hLeads.transfer hUsed hNext).error?_run
      (Goal.move_of_not_mem_expected hMove hKind)
  have hAccepted := (recognize_of_derives hDerives
    (p := r) (hKinds ▸ List.prefix_rfl) (by
      rw [kind_peek, kinds_skip, hKinds, List.drop_length]
      cases n <;> decide)).1
  rw [recognize, hRejected] at hAccepted
  cases hAccepted

end Parser

end IntDecl

------------------------------------------------------------
-- Syntax Errors
------------------------------------------------------------

namespace IntDecl

namespace TokenSequence

/- The kinds of the tokens before a position of the body. -/
theorem take_kinds_of_prefix
    {ts : TokenSequence}
    {used : List TokenKind}
    (hPrefix : used <+: Token.kinds ts.body) :
    ts.kinds.take used.length = used := by
  rw [kinds_eq]
  exact
    (List.prefix_iff_eq_take.mp
      (hPrefix.trans (List.prefix_append _ _))).symm

/- One token more adds the kind that is seen there. -/
theorem take_kinds_succ
    {ts : TokenSequence}
    {cursor : Nat}
    (hCursor : cursor < ts.size) :
    ts.kinds.take (cursor + 1) =
      ts.kinds.take cursor ++
        [(Parser.before ts cursor).peek.kind] := by
  have hToken := Parser.getElem?_tokens_cursor hCursor
  rw [List.take_add_one]
  simp [kinds, Token.kinds, hToken]

/-
  A sequence with a syntax error is read up to the token that
  a goal rejects.
-/
theorem exists_leads_of_syntaxError?
    {ts : TokenSequence}
    {e : SyntaxError}
    (hError : ts.syntaxError? = some e) :
    ∃ used goal rest new,
      used <+: Token.kinds ts.body ∧ goal.Arises ∧
        ts.parse.parser = Parser.before ts used.length ∧
        e.found = ts.parse.parser.peek ∧
        goal.move ts.parse.parser.peek.kind =
          .reject e.expected new ∧
        Parser.Leads [.phrase .program]
          (Parser.ofSequence ts) used (goal :: rest)
          ts.parse.parser := by
  rcases Parser.exists_leads_of_error?_eq_some hError with
    ⟨used, goal, rest, new, hLeads, hMove, hFound⟩
  have hArises : ∀ g ∈ [Goal.phrase .program], g.Arises := by
    simp [Goal.Arises]
  have hUsed := hLeads.used_prefix hArises
  rw [Parser.ofSequence, Parser.kinds_before,
    List.drop_zero] at hUsed
  have hEnd := (hLeads.eq_before hArises (Nat.zero_le _)).2
  rw [Nat.zero_add] at hEnd
  exact
    ⟨used, goal, rest, new, hUsed,
      hLeads.arises hArises goal List.mem_cons_self,
      hEnd, hFound, hMove, hLeads⟩

/-
  A syntax error is found at the first token that does not
  fit: the tokens before it begin some program, and with it
  they begin none. Operators aside, the error expects exactly
  the kinds with which they would still begin one.
-/
theorem viable_of_syntaxError?
    {ts : TokenSequence}
    {e : SyntaxError}
    (hError : ts.syntaxError? = some e) :
    ts.tokens[ts.parse.parser.cursor]? = some e.found ∧
      Viable (ts.kinds.take ts.parse.parser.cursor) ∧
      ¬ Viable
        (ts.kinds.take (ts.parse.parser.cursor + 1)) ∧
      ∀ kind, kind ∈ e.expected ↔
        kind ≠ .plus ∧ kind ≠ .multiply ∧
          Viable (ts.kinds.take ts.parse.parser.cursor ++
            [kind]) := by
  rcases exists_leads_of_syntaxError? hError with
    ⟨used, goal, rest, new, hUsed, hArises, hEnd, hFound,
      hMove, hLeads⟩
  have hCursor : used.length < ts.size := by
    have hLength : used.length ≤ ts.body.length := by
      simpa [Token.kinds] using hUsed.length_le
    rw [size_eq]
    omega
  have hBefore :
      ts.kinds.take ts.parse.parser.cursor = used := by
    rw [hEnd]
    exact take_kinds_of_prefix hUsed
  have hWith :
      ts.kinds.take (ts.parse.parser.cursor + 1) =
        used ++ [ts.parse.parser.peek.kind] := by
    rw [← hBefore, hEnd]
    exact take_kinds_succ hCursor
  have hToken :
      ts.tokens[ts.parse.parser.cursor]? = some e.found := by
    rw [hFound, hEnd]
    exact Parser.getElem?_tokens_cursor hCursor
  have hViable (kind : TokenKind) :
      Viable (used ++ [kind]) ↔
        ∃ further,
          Derives .program (used ++ kind :: further) := by
    simp [Viable]
  rw [hBefore, hWith]
  refine ⟨hToken, hLeads.exists_derives, ?_, ?_⟩
  · rw [hViable]
    intro hViableWith
    rcases hViableWith with ⟨further, hDerives⟩
    exact hLeads.not_derives hMove
      (Goal.not_mem_expected hMove) (Or.inl rfl) further
      hDerives
  · intro kind
    rw [hViable]
    constructor
    · intro hMem
      have hSign :=
        Goal.ne_sign_of_mem_expected hArises hMove hMem
      exact
        ⟨hSign.1, hSign.2,
          hLeads.exists_derives_of_mem hMove hMem⟩
    · intro hOther
      rcases hOther with
        ⟨hPlus, hMultiply, further, hDerives⟩
      apply Classical.byContradiction
      intro hNot
      exact hLeads.not_derives hMove hNot
        (Or.inr ⟨hPlus, hMultiply⟩) further hDerives

/- Inside a group, behind an operator that lacks an operand. -/
theorem viable_in_group :
    let ts := TokenSequence.ofSource "int x = (1 + ) * (;"
    let e : SyntaxError :=
      { expected := [.number, .lparen]
        found := ⟨⟨.rparen, ")"⟩, ⟨13, 1⟩⟩
        stack :=
          ["Program", "Expression", "Term", "Factor",
            "Expression", "Term", "Factor"] }
    ts.syntaxError? = some e ∧
      ts.tokens[ts.parse.parser.cursor]? = some e.found ∧
      Viable (ts.kinds.take ts.parse.parser.cursor) ∧
      ¬ Viable
        (ts.kinds.take (ts.parse.parser.cursor + 1)) ∧
      ∀ kind, kind ∈ e.expected ↔
        kind ≠ .plus ∧ kind ≠ .multiply ∧
          Viable (ts.kinds.take ts.parse.parser.cursor ++
            [kind]) := by
  have hError :
      (TokenSequence.ofSource
        "int x = (1 + ) * (;").syntaxError? =
          some
            { expected := [.number, .lparen]
              found := ⟨⟨.rparen, ")"⟩, ⟨13, 1⟩⟩
              stack :=
                ["Program", "Expression", "Term", "Factor",
                  "Expression", "Term", "Factor"] } := by
    decide +kernel
  exact ⟨hError, viable_of_syntaxError? hError⟩

end TokenSequence

end IntDecl
