import IntDecl.Proofs.Extent
import IntDecl.Proofs.Verdict

/-
  This file shows that recognition looks at nothing but the
  kinds of the tokens that it walks over, the one where it
  ends included.

  The same moves can be made wherever tokens of the same kinds
  stand, in another sequence or elsewhere in the same one.
  They come to rest before a token of the same kind there, and
  for the same reason.

  Key definitions include:
    * `TokenSequence.SameKinds`

  Key theorems include:
    * `Parser.Rests.run_alike`
    * `Parser.Leads.run_alike`
    * `TokenSequence.SameKinds.prefix_kinds`
    * `TokenSequence.SameKinds.recognize_before`
    * `TokenSequence.recognize_afterAll_alike`
-/

------------------------------------------------------------
-- The Same Run Elsewhere
------------------------------------------------------------

namespace IntDecl

namespace Parser

/-
  An agenda that has come to rest before a token does so
  before every token of the same kind, with the same error but
  for the token that is found.
-/
theorem Rests.run_alike
    {p q : Parser}
    {goals : List Goal}
    (hRests : Rests p goals)
    (hKind : p.peek.kind = q.peek.kind) :
    (run goals q).parser = q ∧
      Option.Rel
        (SyntaxError.AgreesIn fun token => token.kind)
        (run goals p).error? (run goals q).error? := by
  cases goals with
  | nil =>
      rw [run, run]
      exact ⟨rfl, .none⟩
  | cons goal rest =>
      rcases hRests with ⟨expected, new, hMove⟩
      have hSame := hMove
      rw [hKind] at hSame
      rw [run_of_reject hMove, run_of_reject hSame]
      exact ⟨rfl, .some ⟨rfl, rfl, hKind⟩⟩

/-
  Where tokens of the kinds come next that a run has passed,
  and behind them one of the kind at which it has ended, the
  run passes the former and ends at the latter.
-/
theorem Leads.run_alike
    {goals last : List Goal}
    {p q r : Parser}
    {used : List TokenKind}
    (hLeads : Leads goals p used last q)
    (hRests : Rests q last)
    (hUsed : used <+: r.kinds)
    (hNext : q.peek.kind = (r.skip used.length).peek.kind) :
    (run goals r).parser = r.skip used.length ∧
      Option.Rel
        (SyntaxError.AgreesIn fun token => token.kind)
        (run goals p).error? (run goals r).error? := by
  have hThere := hLeads.transfer hUsed (.inl hNext.symm)
  rcases hLeads.exists_run_eq with ⟨events, hRun⟩
  rcases hThere.exists_run_eq with ⟨others, hOther⟩
  rw [hRun, hOther]
  exact hRests.run_alike hNext

end Parser

end IntDecl

------------------------------------------------------------
-- The Same Kinds Elsewhere
------------------------------------------------------------

namespace IntDecl

namespace TokenSequence

/-
  The tokens of two sequences are of the same kinds from two
  positions on, up to and including a number of tokens later.
-/
def SameKinds
    (ts us : TokenSequence)
    (first other length : Nat) :
    Prop :=
  ∀ i ≤ length, ts.kinds[first + i]? = us.kinds[other + i]?

/- Before the end mark the kinds are those of the body. -/
theorem getElem?_kinds
    {ts : TokenSequence}
    {i : Nat}
    (hBody : i < ts.body.length) :
    ts.kinds[i]? = (Token.kinds ts.body)[i]? := by
  rw [kinds_eq, List.getElem?_append_left]
  rw [Token.kinds, List.length_map]
  exact hBody

/- Positions with the same kinds lie within the sequence. -/
theorem SameKinds.le_length
    {ts us : TokenSequence}
    {first other length : Nat}
    (hSame : ts.SameKinds us first other length)
    (hBody : first + length ≤ ts.body.length) :
    other + length ≤ us.body.length := by
  have hLast := hSame length (Nat.le_refl _)
  rw [getElem?_kinds_cursor hBody, eq_comm,
    List.getElem?_eq_some_iff] at hLast
  rcases hLast with ⟨hSize, _⟩
  rw [kinds_eq, List.length_append, Token.kinds,
    List.length_map, List.length_singleton] at hSize
  omega

/- What comes next at one position does so at the other. -/
theorem SameKinds.prefix_kinds
    {ts us : TokenSequence}
    {first other : Nat}
    {used : List TokenKind}
    (hSame : ts.SameKinds us first other used.length)
    (hBody : first + used.length ≤ ts.body.length)
    (hUsed : used <+: (Parser.before ts first).kinds) :
    used <+: (Parser.before us other).kinds := by
  have hOther := hSame.le_length hBody
  rw [Parser.kinds_before] at hUsed ⊢
  rw [List.prefix_iff_getElem?] at hUsed ⊢
  intro i hLess
  rw [← hUsed i hLess, List.getElem?_drop,
    List.getElem?_drop, ← getElem?_kinds (by omega),
    ← getElem?_kinds (by omega)]
  exact (hSame i (Nat.le_of_lt hLess)).symm

/- The same kinds are seen behind the same number of tokens. -/
theorem SameKinds.kind_peek
    {ts us : TokenSequence}
    {first other length : Nat}
    (hSame : ts.SameKinds us first other length)
    (hBody : first + length ≤ ts.body.length) :
    (Parser.before ts (first + length)).peek.kind =
      (Parser.before us (other + length)).peek.kind := by
  have hLast := hSame length (Nat.le_refl _)
  rw [getElem?_kinds_cursor hBody,
    getElem?_kinds_cursor (hSame.le_length hBody)] at hLast
  exact Option.some.inj hLast

end TokenSequence

end IntDecl

------------------------------------------------------------
-- Phrases Elsewhere
------------------------------------------------------------

namespace IntDecl

namespace TokenSequence

/-
  A phrase is recognized, or fails to be, after the same
  number of tokens and for the same reason from all positions
  with the same kinds up to where recognition ends.
-/
theorem SameKinds.recognize_before
    {ts us : TokenSequence}
    {first other : Nat}
    {n : NonTerminal}
    (hFirst : first ≤ ts.body.length)
    (hSame :
      ts.SameKinds us first other
        (((Parser.before ts first).recognize n).parser.cursor
          - first)) :
    ((Parser.before us other).recognize n).parser.cursor =
        other +
          (((Parser.before ts first).recognize
            n).parser.cursor - first) ∧
      Option.Rel
        (SyntaxError.AgreesIn fun token => token.kind)
        ((Parser.before ts first).recognize n).error?
        ((Parser.before us other).recognize n).error? := by
  have hArises : ∀ g ∈ [Goal.phrase n], g.Arises := by
    simp [Goal.Arises]
  -- Recognition is a chain of moves that comes to rest. The
  -- chain has seen the kinds it passed and the one after them,
  -- so it can be made from the other position as well.
  rcases Parser.exists_leads_rests [.phrase n]
      (Parser.before ts first) with
    ⟨used, last, q, hLeads, hRests⟩
  rcases hLeads.eq_before hArises hFirst with ⟨hBody, hEq⟩
  have hEnd :
      ((Parser.before ts first).recognize n).parser.cursor =
        first + used.length := by
    rw [Parser.recognize, hLeads.parser_run hRests, hEq]
    rfl
  rw [hEnd, Nat.add_sub_cancel_left] at hSame ⊢
  have hUsed :=
    hSame.prefix_kinds hBody (hLeads.used_prefix hArises)
  have hSkip :
      (Parser.before us other).skip used.length =
        Parser.before us (other + used.length) :=
    Parser.skip_before (hSame.le_length hBody)
  have hNext :
      q.peek.kind =
        ((Parser.before us other).skip
          used.length).peek.kind := by
    rw [hEq, hSkip]
    exact hSame.kind_peek hBody
  rcases hLeads.run_alike hRests hUsed hNext with
    ⟨hThere, hError⟩
  refine ⟨?_, hError⟩
  rw [Parser.recognize, hThere, hSkip]
  rfl

/-
  Recognition is told by the kinds of the tokens from where it
  starts to where it ends. After any two sessions, if these
  are the same, it ends after the same number of tokens, and
  either succeeds in both or fails in both with errors that
  expect the same kinds in the same phrases. The token that is
  found is the one at the position.
-/
theorem recognize_afterAll_alike
    {ts us : TokenSequence}
    {requests others : List Parser.Request}
    {n : NonTerminal} :
    let p := (Parser.ofSequence ts).afterAll requests
    let q := (Parser.ofSequence us).afterAll others
    ts.SameKinds us p.cursor q.cursor
        ((p.recognize n).parser.cursor - p.cursor) →
      (q.recognize n).parser.cursor =
          q.cursor +
            ((p.recognize n).parser.cursor - p.cursor) ∧
        Option.Rel
          (SyntaxError.AgreesIn fun token => token.kind)
          (p.recognize n).error? (q.recognize n).error? ∧
        ∀ e, (q.recognize n).error? = some e →
          us.tokens[(q.recognize n).parser.cursor]? =
            some e.found := by
  intro p q hSame
  rcases Parser.exists_afterAll_eq ts requests with
    ⟨first, hFirst, hBefore⟩
  rcases Parser.exists_afterAll_eq us others with
    ⟨other, hOther, hBehind⟩
  have hStart : p = Parser.before ts first := hBefore
  have hThere : q = Parser.before us other := hBehind
  rw [hStart, hThere] at hSame ⊢
  change ts.SameKinds us first other _ at hSame
  rcases hSame.recognize_before hFirst with ⟨hEnd, hError⟩
  refine ⟨hEnd, hError, ?_⟩
  intro e hFound
  exact (Parser.getElem?_cursor_of_error? hOther hFound).1

/-
  A group without its last operand, behind an equals sign and
  behind a parenthesis, with other texts.
-/
theorem recognize_afterAll_alike_in_group :
    let ts := ofSource "int x = (1 + ) * 2;"
    let us := ofSource "((\n07+) y"
    let p := (Parser.ofSequence ts).afterAll
      [.expect .intKeyword, .recognize .term,
        .expect .identifier, .expect .assign]
    let q := (Parser.ofSequence us).afterAll
      [.expect .lparen]
    let o := p.recognize .expression
    let r := q.recognize .expression
    p.cursor = 3 ∧ q.cursor = 1 ∧ o.parser.cursor = 6 ∧
      o.error? ≠ none ∧
      ts.SameKinds us p.cursor q.cursor
        (o.parser.cursor - p.cursor) ∧
      r.parser.cursor =
        q.cursor + (o.parser.cursor - p.cursor) ∧
      Option.Rel
        (SyntaxError.AgreesIn fun token => token.kind)
        o.error? r.error? ∧
      ∀ e, r.error? = some e →
        us.tokens[r.parser.cursor]? = some e.found := by
  intro ts us p q o r
  have hSame :
      ts.SameKinds us p.cursor q.cursor
        (o.parser.cursor - p.cursor) := by
    unfold SameKinds
    decide +kernel
  exact
    ⟨by decide +kernel, by decide +kernel,
      by decide +kernel, by decide +kernel, hSame,
      recognize_afterAll_alike hSame⟩

end TokenSequence

end IntDecl
