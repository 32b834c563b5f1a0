import IntDecl.Proofs.Agreement
import IntDecl.Proofs.Editing
import IntDecl.Proofs.Session

/-
  This file shows that no session and no edits tell sequences
  apart that agree.

  Sequences that agree differ in the places of their tokens
  only. Moves of an agenda are told by kinds, sums by texts,
  and windows by positions among the tokens, so two sequences
  that agree go through the same moves and the same edits and
  agree after each of them.

  Key definitions include:
    * `Parser.Agrees`
    * `Outcome.Agrees`
    * `Edit.Agrees`
    * `TokenSequence.ResultsAgree`
    * `TokenSequence.editAll`

  Key theorems include:
    * `Parser.Agrees.run`
    * `Parser.Agrees.respondAll`
    * `TokenSequence.Agrees.edit`
    * `TokenSequence.Agrees.editAll`
    * `TokenSequence.Agrees.indistinguishable`
-/

------------------------------------------------------------
-- Parsers That Agree
------------------------------------------------------------

namespace IntDecl

namespace Parser

/- Two parsers agree if they differ in places only. -/
structure Agrees (p q : Parser) : Prop where
  ahead : Token.lexemes p.ahead = Token.lexemes q.ahead
  cursor : p.cursor = q.cursor

/- Parsers that agree see the same lexeme. -/
theorem Agrees.peek
    {p q : Parser}
    (hAgrees : p.Agrees q) :
    p.peek.toLexeme = q.peek.toLexeme := by
  have hAhead := hAgrees.ahead
  unfold Parser.peek
  cases hFirst : p.ahead with
  | nil =>
      rw [hFirst] at hAhead
      rw [Token.eq_nil_of_lexemes_nil hAhead]
      rfl
  | cons token rest =>
      rw [hFirst] at hAhead
      rcases Token.exists_of_lexemes_cons hAhead with
        ⟨other, others, hSecond, hToken, _⟩
      rw [hSecond]
      exact hToken

/- Parsers that agree see a token of the same kind. -/
theorem Agrees.kind_peek
    {p q : Parser}
    (hAgrees : p.Agrees q) :
    p.peek.kind = q.peek.kind :=
  congrArg Lexeme.kind hAgrees.peek

/- Parsers that agree still do so behind the next token. -/
theorem Agrees.advance
    {p q : Parser}
    (hAgrees : p.Agrees q) :
    p.advance.Agrees q.advance := by
  have hAhead := hAgrees.ahead
  unfold Parser.advance
  cases hFirst : p.ahead with
  | nil =>
      rw [hFirst] at hAhead
      rw [Token.eq_nil_of_lexemes_nil hAhead]
      exact hAgrees
  | cons token rest =>
      rw [hFirst] at hAhead
      rcases Token.exists_of_lexemes_cons hAhead with
        ⟨other, others, hSecond, _, hRest⟩
      rw [hSecond]
      exact ⟨hRest, congrArg (· + 1) hAgrees.cursor⟩

end Parser

end IntDecl

------------------------------------------------------------
-- Outcomes That Agree
------------------------------------------------------------

namespace IntDecl

namespace Outcome

/-
  Two outcomes agree if they are both successes or both errors
  that agree, at the same position, after the same lexemes
  have been passed.
-/
structure Agrees (o r : Outcome) : Prop where
  parser : o.parser.Agrees r.parser
  error : Option.Rel SyntaxError.Agrees o.error? r.error?
  consumed :
    Token.lexemes o.consumed = Token.lexemes r.consumed

end Outcome

namespace Parser

/- Errors at positions that agree are errors that agree. -/
theorem Agrees.failure
    {p q : Parser}
    (hAgrees : p.Agrees q)
    (expected : List TokenKind)
    (goals : List Goal) :
    Option.Rel SyntaxError.Agrees
      (failure expected goals p).error?
      (failure expected goals q).error? :=
  .some ⟨rfl, hAgrees.peek, rfl⟩

/- An agenda has the same outcome for parsers that agree. -/
theorem Agrees.run
    {p q : Parser}
    (hAgrees : p.Agrees q)
    (goals : List Goal) :
    (run goals p).Agrees (run goals q) := by
  induction goals, p using run_induction generalizing q with
  | nil p =>
      rw [Parser.run, Parser.run]
      exact ⟨hAgrees, .none, rfl⟩
  | replace goal goals p new hMove ih =>
      have hSame := hMove
      rw [hAgrees.kind_peek] at hSame
      have hNew := ih hAgrees
      refine ⟨?_, ?_, ?_⟩
      · rw [run_of_replace hMove, run_of_replace hSame]
        exact hNew.parser
      · rw [run_of_replace hMove, run_of_replace hSame]
        exact hNew.error
      · rw [consumed_run_of_replace hMove,
          consumed_run_of_replace hSame]
        exact hNew.consumed
  | pass goal goals p new hMove ih =>
      have hSame := hMove
      rw [hAgrees.kind_peek] at hSame
      have hNew := ih hAgrees.advance
      refine ⟨?_, ?_, ?_⟩
      · rw [run_of_pass hMove, run_of_pass hSame]
        exact hNew.parser
      · rw [run_of_pass hMove, run_of_pass hSame]
        exact hNew.error
      · rw [consumed_run_of_pass hMove,
          consumed_run_of_pass hSame, Token.lexemes_cons,
          Token.lexemes_cons, hAgrees.peek, hNew.consumed]
  | reject goal goals p expected new hMove =>
      have hSame := hMove
      rw [hAgrees.kind_peek] at hSame
      refine ⟨?_, ?_, ?_⟩
      · rw [run_of_reject hMove, run_of_reject hSame]
        exact hAgrees
      · rw [run_of_reject hMove, run_of_reject hSame]
        exact hAgrees.failure expected (new ++ goals)
      · rw [consumed_run_of_reject hMove,
          consumed_run_of_reject hSame]

/- A session has the same outcomes for parsers that agree. -/
theorem Agrees.respondAll
    {p q : Parser}
    (hAgrees : p.Agrees q)
    (requests : List Request) :
    List.Forall₂ Outcome.Agrees
      (p.respondAll requests) (q.respondAll requests) := by
  induction requests generalizing p q with
  | nil =>
      exact .nil
  | cons request requests ih =>
      have hOutcome :
          (p.respond request).Agrees (q.respond request) := by
        rw [respond_eq_run, respond_eq_run]
        exact hAgrees.run [request.goal]
      exact .cons hOutcome (ih hOutcome.parser)

end Parser

namespace TokenSequence

/- Parsers start alike on sequences that agree. -/
theorem Agrees.ofSequence
    {ts us : TokenSequence}
    (hAgrees : ts.Agrees us) :
    (Parser.ofSequence ts).Agrees (Parser.ofSequence us) :=
  ⟨(agrees_iff ts us).mp hAgrees, rfl⟩

end TokenSequence

end IntDecl

------------------------------------------------------------
-- Edits That Agree
------------------------------------------------------------

namespace IntDecl

namespace Edit

/- Two edits agree if they differ in places only. -/
inductive Agrees : Edit → Edit → Prop where
| replace
    {first last : Nat}
    {token other : Token}
    (hToken : token.toLexeme = other.toLexeme) :
    Agrees (.replace first last token)
      (.replace first last other)
| fold :
    Agrees .fold .fold

end Edit

namespace TokenSequence

/-
  Two results of an edit agree if they are sequences that
  agree or the same refusal.
-/
inductive ResultsAgree :
    Except Fault TokenSequence →
      Except Fault TokenSequence → Prop where
| ok
    {ts us : TokenSequence}
    (hAgrees : ts.Agrees us) :
    ResultsAgree (.ok ts) (.ok us)
| error
    {fault : Fault} :
    ResultsAgree (.error fault) (.error fault)

/-
  The results of some edits, each of them made on what the
  edits before it have left.
-/
def editAll :
    TokenSequence → List Edit →
      List (Except Fault TokenSequence)
| _, [] => []
| ts, edit :: edits =>
    ts.edit edit :: (ts.after edit).editAll edits

/- Sequences that agree have the same number of tokens. -/
theorem Agrees.size_eq
    {ts us : TokenSequence}
    (hAgrees : ts.Agrees us) :
    ts.size = us.size := by
  have hLength := congrArg List.length hAgrees
  simpa [lexemes, Token.lexemes, size] using hLength

/-
  A replacement leaves sequences that agree in agreement, or
  both refuse it for the same reason.
-/
theorem Agrees.replaceWindow
    {ts us : TokenSequence}
    {token other : Token}
    (hAgrees : ts.Agrees us)
    (hToken : token.toLexeme = other.toLexeme)
    (first last : Nat) :
    ResultsAgree (ts.replaceWindow first last token)
      (us.replaceWindow first last other) := by
  have hKind : token.kind = other.kind :=
    congrArg Lexeme.kind hToken
  have hBody := (agrees_iff ts us).mp hAgrees
  unfold TokenSequence.replaceWindow
  rw [hAgrees.size_eq]
  by_cases hWindow : first < last ∧ last < us.size
  · rw [if_pos hWindow, if_pos hWindow]
    by_cases hOther : other.kind ≠ .endOfInput
    · rw [dif_pos (hKind ▸ hOther), dif_pos hOther]
      apply ResultsAgree.ok
      rw [agrees_iff, Token.lexemes_append,
        Token.lexemes_append, Token.lexemes_cons,
        Token.lexemes_cons, hToken]
      simp only [Token.lexemes, List.map_take, List.map_drop]
        at hBody ⊢
      rw [hBody]
    · rw [dif_neg (hKind ▸ hOther), dif_neg hOther]
      exact .error
  · rw [if_neg hWindow, if_neg hWindow]
    exact .error

/- An edit has the same result for sequences that agree. -/
theorem Agrees.edit
    {ts us : TokenSequence}
    {edit other : Edit}
    (hAgrees : ts.Agrees us)
    (hEdits : edit.Agrees other) :
    ResultsAgree (ts.edit edit) (us.edit other) := by
  cases hEdits with
  | replace hToken =>
      exact hAgrees.replaceWindow hToken _ _
  | fold =>
      rw [TokenSequence.edit, TokenSequence.edit,
        foldInPlace_eq, foldInPlace_eq]
      exact .ok hAgrees.fold

/- After an edit sequences that agree still do so. -/
theorem Agrees.after
    {ts us : TokenSequence}
    {edit other : Edit}
    (hAgrees : ts.Agrees us)
    (hEdits : edit.Agrees other) :
    (ts.after edit).Agrees (us.after other) := by
  have hResults := hAgrees.edit hEdits
  unfold TokenSequence.after
  generalize ts.edit edit = first at hResults ⊢
  generalize us.edit other = second at hResults ⊢
  cases hResults with
  | ok hAfter =>
      exact hAfter
  | error =>
      exact hAgrees

/-
  Edits have the same results for sequences that agree, and
  the sequences agree after all of them.
-/
theorem Agrees.editAll
    {ts us : TokenSequence}
    {edits others : List Edit}
    (hAgrees : ts.Agrees us)
    (hEdits : List.Forall₂ Edit.Agrees edits others) :
    List.Forall₂ ResultsAgree
        (ts.editAll edits) (us.editAll others) ∧
      (ts.afterAll edits).Agrees (us.afterAll others) := by
  induction hEdits generalizing ts us with
  | nil =>
      exact ⟨.nil, hAgrees⟩
  | cons hFirst _ ih =>
      rcases ih (hAgrees.after hFirst) with ⟨hLater, hEnd⟩
      exact ⟨.cons (hAgrees.edit hFirst) hLater, hEnd⟩

end TokenSequence

end IntDecl

------------------------------------------------------------
-- Sequences That Cannot Be Told Apart
------------------------------------------------------------

namespace IntDecl

namespace TokenSequence

/-
  Sequences that agree cannot be told apart. They fold into
  sequences that agree; they are both programs or have errors
  that agree; a session on one of them has the outcomes that
  it has on the other; and so have edits, of which the same
  are refused, and which leave sequences that agree.
-/
theorem Agrees.indistinguishable
    {ts us : TokenSequence}
    (hAgrees : ts.Agrees us) :
    ts.fold.Agrees us.fold ∧
      Option.Rel SyntaxError.Agrees
        ts.syntaxError? us.syntaxError? ∧
      (∀ requests,
        List.Forall₂ Outcome.Agrees
          ((Parser.ofSequence ts).respondAll requests)
          ((Parser.ofSequence us).respondAll requests)) ∧
      ∀ edits others,
        List.Forall₂ Edit.Agrees edits others →
          List.Forall₂ ResultsAgree
              (ts.editAll edits) (us.editAll others) ∧
            (ts.afterAll edits).Agrees
              (us.afterAll others) := by
  have hParsers := hAgrees.ofSequence
  refine ⟨hAgrees.fold, ?_, hParsers.respondAll, ?_⟩
  · exact (hParsers.run [.phrase .program]).error
  · intro edits others hEdits
    exact hAgrees.editAll hEdits

/- An error, a session and edits in two written forms. -/
theorem Agrees.indistinguishable_unspaced :
    let ts := ofSource "int x = (1 + 2) + ;"
    let us := ofSource "int x=(1+\n2)+;"
    let requests : List Parser.Request :=
      [.recognize .program, .expect .number,
        .expect .endOfInput, .recognize .term]
    let seven (span : Span) : Token := ⟨⟨.number, "7"⟩, span⟩
    let edits (span : Span) : List Edit :=
      [.replace 8 9 (seven span), .replace 9 11 (seven span),
        .fold]
    ts ≠ us ∧ ts.Agrees us ∧ ts.fold.Agrees us.fold ∧
      Option.Rel SyntaxError.Agrees
        ts.syntaxError? us.syntaxError? ∧
      List.Forall₂ Outcome.Agrees
        ((Parser.ofSequence ts).respondAll requests)
        ((Parser.ofSequence us).respondAll requests) ∧
      List.Forall₂ Edit.Agrees
        (edits ⟨0, 1⟩) (edits ⟨12, 1⟩) ∧
      (ts.afterAll (edits ⟨0, 1⟩)).Agrees
        (us.afterAll (edits ⟨12, 1⟩)) := by
  intro ts us requests seven edits
  have hAgrees : ts.Agrees us := by
    decide +kernel
  have hEdits :
      List.Forall₂ Edit.Agrees
        (edits ⟨0, 1⟩) (edits ⟨12, 1⟩) :=
    .cons (.replace rfl)
      (.cons (.replace rfl) (.cons .fold .nil))
  rcases hAgrees.indistinguishable with
    ⟨hFold, hError, hSession, hEdited⟩
  exact
    ⟨by decide +kernel, hAgrees, hFold, hError,
      hSession requests, hEdits,
      (hEdited (edits ⟨0, 1⟩) (edits ⟨12, 1⟩) hEdits).2⟩

end TokenSequence

end IntDecl
