import IntDecl.Proofs.Contraction
import IntDecl.Proofs.Recognition

/-
  This file shows that places do not matter to folding and
  recognition.

  Sequences that agree have the same lexemes. What a window
  gives way to is told by the lexemes in it, so agreeing
  sequences are still agreeing after they have been folded.

  Key theorems include:
    * `Token.map_toLexeme_window?`
    * `Token.lexemes_contract`
    * `TokenSequence.Agrees.fold`
    * `TokenSequence.Agrees.syntaxError?_eq_none`
-/

------------------------------------------------------------
-- Windows In Other Places
------------------------------------------------------------

namespace IntDecl

namespace Token

/-
  A window of the same lexemes gives way to the same lexeme,
  or also does not give way.
-/
theorem map_toLexeme_window?
    {lhs op rhs first second third : Token}
    (hLeft : lhs.toLexeme = first.toLexeme)
    (hOp : op.toLexeme = second.toLexeme)
    (hRight : rhs.toLexeme = third.toLexeme) :
    (window? lhs op rhs).map toLexeme =
      (window? first second third).map toLexeme := by
  have hAddition :
      lhs.IsAddition op rhs ↔
        first.IsAddition second third := by
    rw [IsAddition, IsAddition, hLeft, hOp, hRight]
  have hSum :
      (lhs.sum? rhs).map toLexeme =
        (first.sum? third).map toLexeme := by
    rw [sum?, sum?, hLeft, hRight]
    split
    · rw [Option.map_map, Option.map_map]
      rfl
    · rfl
  unfold window?
  by_cases hFirst : lhs.IsAddition op rhs
  · rw [if_pos hFirst, if_pos (hAddition.mp hFirst), hSum]
  · rw [if_neg hFirst, if_neg (mt hAddition.mpr hFirst)]

/- Tokens of no lexemes are no tokens. -/
theorem eq_nil_of_lexemes_nil
    {others : List Token}
    (hSame : lexemes [] = lexemes others) :
    others = [] :=
  List.map_eq_nil_iff.mp hSame.symm

/- A token with the same lexeme stands first in both lists. -/
theorem exists_of_lexemes_cons
    {token : Token}
    {tokens others : List Token}
    (hSame : lexemes (token :: tokens) = lexemes others) :
    ∃ first rest, others = first :: rest ∧
      token.toLexeme = first.toLexeme ∧
      lexemes tokens = lexemes rest := by
  rw [lexemes_cons, eq_comm, lexemes, List.map_eq_cons_iff]
    at hSame
  rcases hSame with ⟨first, rest, hOthers, hFirst, hRest⟩
  exact ⟨first, rest, hOthers, hFirst.symm, hRest.symm⟩

/- Folding tokens of the same lexemes leaves the same ones. -/
theorem lexemes_contract
    {tokens others : List Token}
    (hSame : lexemes tokens = lexemes others) :
    lexemes (contract tokens) =
      lexemes (contract others) := by
  fun_induction contract tokens generalizing others with
  | case1 lhs op rhs rest sum hSum ih =>
      rcases exists_of_lexemes_cons hSame with
        ⟨first, _, rfl, hLeft, hSame⟩
      rcases exists_of_lexemes_cons hSame with
        ⟨second, _, rfl, hOp, hSame⟩
      rcases exists_of_lexemes_cons hSame with
        ⟨third, more, rfl, hRight, hRest⟩
      have hWindow := map_toLexeme_window? hLeft hOp hRight
      rw [hSum, eq_comm, Option.map_some,
        Option.map_eq_some_iff] at hWindow
      rcases hWindow with ⟨total, hTotal, hLexeme⟩
      rw [contract, hTotal]
      apply ih
      rw [lexemes_cons, lexemes_cons, hLexeme, hRest]
  | case2 lhs op rhs rest hNone ih =>
      rcases exists_of_lexemes_cons hSame with
        ⟨first, _, rfl, hLeft, hLater⟩
      rcases exists_of_lexemes_cons hLater with
        ⟨second, _, rfl, hOp, hSame⟩
      rcases exists_of_lexemes_cons hSame with
        ⟨third, more, rfl, hRight, _⟩
      have hWindow := map_toLexeme_window? hLeft hOp hRight
      rw [hNone, eq_comm, Option.map_none,
        Option.map_eq_none_iff] at hWindow
      rw [contract, hWindow, lexemes_cons, lexemes_cons,
        hLeft, ih hLater]
  | case3 tokens hShort =>
      have hStays : contract others = others := by
        rw [contract]
        intro first second third rest hOthers
        subst hOthers
        rcases exists_of_lexemes_cons hSame.symm with
          ⟨lhs, _, rfl, _, hSame⟩
        rcases exists_of_lexemes_cons hSame with
          ⟨op, _, rfl, _, hSame⟩
        rcases exists_of_lexemes_cons hSame with
          ⟨rhs, more, rfl, _, _⟩
        exact hShort lhs op rhs more rfl
      rw [hStays]
      exact hSame

end Token

end IntDecl

------------------------------------------------------------
-- Sequences That Agree
------------------------------------------------------------

namespace IntDecl

namespace TokenSequence

/- Sequences that agree are folded into ones that agree. -/
theorem Agrees.fold
    {ts us : TokenSequence}
    (hAgrees : ts.Agrees us) :
    ts.fold.Agrees us.fold := by
  rw [agrees_iff] at hAgrees ⊢
  rw [body_fold, body_fold]
  exact Token.lexemes_contract hAgrees

/- Sequences that agree have tokens of the same kinds. -/
theorem Agrees.kinds_eq
    {ts us : TokenSequence}
    (hAgrees : ts.Agrees us) :
    ts.kinds = us.kinds := by
  rw [kinds, kinds, ← Token.kinds_lexemes,
    ← Token.kinds_lexemes]
  exact congrArg Lexeme.kinds hAgrees

/- What agrees with a program is a program. -/
theorem Agrees.syntaxError?_eq_none
    {ts us : TokenSequence}
    (hAgrees : ts.Agrees us)
    (hOk : ts.syntaxError? = none) :
    us.syntaxError? = none := by
  rcases exists_derives_of_parse hOk with
    ⟨program, hPrefix, hDerives⟩
  rw [hAgrees.kinds_eq] at hPrefix
  exact (parse_of_derives hDerives hPrefix).1

end TokenSequence

end IntDecl
