import IntDecl.Proofs.Derivation

/-
  This file proves that recognition decides the grammar.

  A phrase is recognized at a position exactly if some of the
  next kinds derive it and no later kind would continue it,
  and these kinds are the only ones. For programs nothing is
  asked of later kinds, so a sequence begins with at most one
  program.

  Key theorems include:
    * `Parser.recognize_of_derives`
    * `Parser.Leads.derives`
    * `Parser.exists_derives_of_recognize`
    * `Derives.append_inj`
    * `TokenSequence.parse_error?_eq_none_iff`
-/

------------------------------------------------------------
-- Phrases At A Position
------------------------------------------------------------

namespace IntDecl

namespace Parser

/- What the grammar derives is recognized. -/
theorem recognize_of_derives
    {n : NonTerminal}
    {kinds : List TokenKind}
    {p : Parser}
    (hDerives : Derives n kinds)
    (hPrefix : kinds <+: p.kinds)
    (hNext :
      (p.skip kinds.length).peek.kind ∉ n.extensions) :
    (p.recognize n).error? = none ∧
      (p.recognize n).parser = p.skip kinds.length := by
  have hLeads :=
    recognizes_of_derives hDerives [] p hPrefix hNext
  exact hLeads.run_of_nil

/- What has been passed for a phrase derives it. -/
theorem Leads.derives
    {n : NonTerminal}
    {p q : Parser}
    {used : List TokenKind}
    (hLeads : Leads [.phrase n] p used [] q) :
    Derives n used := by
  have hMet :
      Goal.AllMetBy [.phrase n] (used ++ []) :=
    hLeads.allMetBy rfl
  rw [List.append_nil, Goal.allMetBy_singleton_iff] at hMet
  exact hMet

/- What is recognized is derived by the grammar. -/
theorem exists_derives_of_recognize
    {n : NonTerminal}
    {p : Parser}
    (hOk : (p.recognize n).error? = none) :
    ∃ kinds, Derives n kinds ∧ kinds <+: p.kinds ∧
      (p.recognize n).parser = p.skip kinds.length := by
  rcases exists_leads_of_error?_eq_none hOk with
    ⟨used, hLeads⟩
  have hArises : ∀ g ∈ [Goal.phrase n], g.Arises := by
    simp [Goal.Arises]
  exact
    ⟨used, hLeads.derives, hLeads.used_prefix hArises,
      hLeads.eq_skip⟩

end Parser

end IntDecl

------------------------------------------------------------
-- Unique Readings
------------------------------------------------------------

namespace IntDecl

namespace Derives

/-
  A text begins with a phrase in at most one way, if what
  follows the phrase does not continue it.
-/
theorem append_inj
    {n : NonTerminal}
    {first second rest more : List TokenKind}
    (hFirst : Derives n first)
    (hSecond : Derives n second)
    (hEq : first ++ rest = second ++ more)
    (hRest : rest.headD .endOfInput ∉ n.extensions)
    (hMore : more.headD .endOfInput ∉ n.extensions) :
    first = second ∧ rest = more := by
  let p := Parser.ofKinds (first ++ rest)
  have hKinds : p.kinds = first ++ rest :=
    Parser.kinds_ofKinds _
  have hAfterFirst : (p.skip first.length).kinds = rest := by
    rw [Parser.kinds_skip, hKinds, List.drop_left]
  have hAfterSecond :
      (p.skip second.length).kinds = more := by
    rw [Parser.kinds_skip, hKinds, hEq, List.drop_left]
  have hOne := Parser.recognize_of_derives hFirst
    (p := p) ⟨rest, hKinds.symm⟩
    (by rwa [Parser.kind_peek, hAfterFirst])
  have hOther := Parser.recognize_of_derives hSecond
    (p := p) ⟨more, (hKinds.trans hEq).symm⟩
    (by rwa [Parser.kind_peek, hAfterSecond])
  have hSame := hOne.2.symm.trans hOther.2
  have hTails : rest = more := by
    rw [← hAfterFirst, hSame, hAfterSecond]
  subst hTails
  exact ⟨List.append_cancel_right hEq, rfl⟩

/- No phrase holds an end mark. -/
theorem endOfInput_not_mem
    {n : NonTerminal}
    {kinds : List TokenKind}
    (hDerives : Derives n kinds) :
    .endOfInput ∉ kinds := by
  induction hDerives with
  | number =>
      decide
  | group _ ih =>
      simpa using ih
  | term _ _ ihFirst ihOthers =>
      simpa using ⟨ihFirst, ihOthers⟩
  | expression _ _ ihFirst ihOthers =>
      simpa using ⟨ihFirst, ihOthers⟩
  | program _ ih =>
      simpa using ih

end Derives

end IntDecl

------------------------------------------------------------
-- Programs
------------------------------------------------------------

namespace IntDecl

namespace TokenSequence

/- A program does not reach the end mark. -/
theorem prefix_body_of_derives
    {ts : TokenSequence}
    {n : NonTerminal}
    {kinds : List TokenKind}
    (hDerives : Derives n kinds)
    (hPrefix : kinds <+: ts.kinds) :
    kinds <+: Token.kinds ts.body := by
  rw [kinds_eq, List.prefix_concat_iff] at hPrefix
  rcases hPrefix with hAll | hBody
  · have hNone := hDerives.endOfInput_not_mem
    rw [hAll] at hNone
    simp at hNone
  · exact hBody

/- A program at the start of a sequence is recognized. -/
theorem parse_of_derives
    {ts : TokenSequence}
    {program : List TokenKind}
    (hDerives : Derives .program program)
    (hPrefix : program <+: ts.kinds) :
    ts.parse.error? = none ∧
      ts.parse.parser = Parser.before ts program.length := by
  have hBody := prefix_body_of_derives hDerives hPrefix
  have hLength : program.length ≤ ts.body.length := by
    simpa [Token.kinds] using hBody.length_le
  have hAhead :
      program <+: (Parser.ofSequence ts).kinds := by
    rwa [Parser.ofSequence, Parser.kinds_before,
      List.drop_zero]
  have hParse := Parser.recognize_of_derives hDerives
    hAhead (by simp [NonTerminal.extensions])
  rw [Parser.ofSequence, Parser.skip_before (by omega),
    Nat.zero_add] at hParse
  exact hParse

/- A sequence that is recognized begins with a program. -/
theorem exists_derives_of_parse
    {ts : TokenSequence}
    (hOk : ts.parse.error? = none) :
    ∃ program, program <+: ts.kinds ∧
      Derives .program program := by
  rcases Parser.exists_derives_of_recognize hOk with
    ⟨program, hDerives, hPrefix, _⟩
  rw [Parser.ofSequence, Parser.kinds_before,
    List.drop_zero] at hPrefix
  rw [kinds_eq]
  exact
    ⟨program, hPrefix.trans (List.prefix_append _ _),
      hDerives⟩

/-
  A sequence is recognized exactly if it begins with a
  program. It begins with one program at most, and
  recognition ends right behind it.
-/
theorem parse_error?_eq_none_iff
    (ts : TokenSequence) :
    (ts.parse.error? = none ↔
        ∃ program, program <+: ts.kinds ∧
          Derives .program program) ∧
      (∀ first second,
        first <+: ts.kinds → second <+: ts.kinds →
          Derives .program first →
            Derives .program second → first = second) ∧
      ∀ program, program <+: ts.kinds →
        Derives .program program →
          ts.parse.parser =
            Parser.before ts program.length := by
  refine ⟨⟨exists_derives_of_parse, ?_⟩, ?_, ?_⟩
  · intro hProgram
    rcases hProgram with ⟨program, hPrefix, hDerives⟩
    exact (parse_of_derives hDerives hPrefix).1
  · intro first second hFirst hSecond hFirstDerives
      hSecondDerives
    rcases hFirst with ⟨rest, hFirst⟩
    rcases hSecond with ⟨more, hSecond⟩
    have hEq := hFirst.trans hSecond.symm
    exact
      (hFirstDerives.append_inj hSecondDerives hEq
        (by simp [NonTerminal.extensions])
        (by simp [NonTerminal.extensions])).1
  · intro program hPrefix hDerives
    exact (parse_of_derives hDerives hPrefix).2

end TokenSequence

end IntDecl
