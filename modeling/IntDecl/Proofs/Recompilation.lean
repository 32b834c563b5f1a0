import IntDecl.Proofs.Acceptance
import IntDecl.Proofs.Addition
import IntDecl.Proofs.Agreement
import IntDecl.Proofs.Placement
import IntDecl.Proofs.Settling
import IntDecl.Proofs.Verdict

/-
  This file shows that compiling what a compilation leaves
  changes nothing.

  The texts of a folded program are written out with blanks
  between them. Folding leaves valid lexemes, so they are read
  back from that text; it leaves a program; and it leaves no
  window that gives way.

  Key definitions include:
    * `Lexeme.spaced`
    * `TokenSequence.spaced`

  Key theorems include:
    * `TokenSequence.agrees_ofSource_spaced`
    * `TokenSequence.syntaxError?_fold_eq_none`
    * `compile_spaced`
-/

------------------------------------------------------------
-- Lexemes With Blanks Between Them
------------------------------------------------------------

namespace IntDecl

namespace Lexeme

/- Lexemes with a blank in front of all but the first. -/
def spaced : List Lexeme → List (List Char × Lexeme)
| [] => []
| l :: lexemes =>
    ([], l) :: lexemes.map fun m => ([' '], m)

/- Valid lexemes behind blanks are a written form. -/
theorem written_map_blank
    {lexemes : List Lexeme}
    (hValid : ∀ l ∈ lexemes, l.IsValid) :
    Written (lexemes.map fun m => ([' '], m)) := by
  induction lexemes with
  | nil =>
      exact .nil
  | cons l lexemes ih =>
      rw [List.forall_mem_cons] at hValid
      have hLater := ih hValid.2
      cases lexemes with
      | nil =>
          exact .single (by decide) hValid.1
      | cons m lexemes =>
          exact
            .cons (by decide) hValid.1
              (fun _ => List.cons_ne_nil _ _) hLater

/- Valid lexemes with blanks between are a written form. -/
theorem written_spaced
    {lexemes : List Lexeme}
    (hValid : ∀ l ∈ lexemes, l.IsValid) :
    Written (spaced lexemes) := by
  have hBlanks := written_map_blank hValid
  cases lexemes with
  | nil =>
      exact .nil
  | cons l lexemes =>
      exact hBlanks.with_gap (by decide)

/- The lexemes of a spaced form. -/
theorem map_snd_spaced
    (lexemes : List Lexeme) :
    (spaced lexemes).map Prod.snd = lexemes := by
  cases lexemes with
  | nil =>
      rfl
  | cons l lexemes =>
      simp [spaced, Function.comp_def]

/- A spaced form is written as the texts joined by blanks. -/
theorem write_spaced
    (lexemes : List Lexeme) :
    write (spaced lexemes) =
      (" ".intercalate (lexemes.map text)).toList := by
  induction lexemes with
  | nil =>
      rfl
  | cons l lexemes ih =>
      cases lexemes with
      | nil =>
          simp [spaced, write]
      | cons m lexemes =>
          rw [List.map_cons, List.map_cons,
            String.intercalate_cons_cons, String.toList_append,
            ← List.map_cons, ← ih]
          simp [spaced, write]

end Lexeme

end IntDecl

------------------------------------------------------------
-- Sequences Written Out
------------------------------------------------------------

namespace IntDecl

namespace TokenSequence

/- The texts of the tokens, joined by single blanks. -/
def spaced (ts : TokenSequence) : String :=
  " ".intercalate (ts.body.map fun token => token.text)

/- A sequence of valid tokens is read back when written. -/
theorem agrees_ofSource_spaced
    {ts : TokenSequence}
    (hValid :
      ∀ token ∈ ts.body, token.toLexeme.IsValid) :
    (ofSource ts.spaced).Agrees ts := by
  have hLexemes :
      ∀ l ∈ Token.lexemes ts.body, l.IsValid :=
    List.forall_mem_map.mpr hValid
  have hText :
      ts.spaced.toList =
        Lexeme.write
          (Lexeme.spaced (Token.lexemes ts.body)) ++ [] := by
    rw [List.append_nil, Lexeme.write_spaced, Token.lexemes,
      List.map_map]
    rfl
  have hBody :=
    body_ofSource_of_write (Lexeme.written_spaced hLexemes)
      (by decide) hText
  rw [agrees_iff, hBody, Token.lexemes_place,
    Lexeme.map_snd_spaced]

/- Folding leaves valid tokens of a source. -/
theorem isValid_of_mem_fold
    (src : String) :
    ∀ token ∈ (ofSource src).fold.body,
      token.toLexeme.IsValid := by
  rw [body_fold]
  apply Token.forall_mem_contract
  · intro lhs op rhs sum hWindow hLeft hRight
    exact (Token.isSum_of_window? hWindow hLeft hRight).2
  · exact TokenStream.isValid_of_mem_remaining _

/- Folding leaves a program. -/
theorem syntaxError?_fold_eq_none
    {ts : TokenSequence}
    (hOk : ts.syntaxError? = none) :
    ts.fold.syntaxError? = none := by
  have hSame :
      Phase.SameHalt (fun _ => ())
        (Phase.start.halt ts.body)
        (Phase.start.halt (Token.contract ts.body)) := by
    apply Phase.sameHalt_contract _ (fun _ => True)
    · intro tokens others _ hTokens
      exact hTokens
    · intro before after lhs op rhs sum _ _
      rfl
    · trivial
  have hRel := rel_syntaxError?_of_sameHalt hSame
  rw [hOk] at hRel
  cases hFold : ts.fold.syntaxError? with
  | none =>
      rfl
  | some e =>
      rw [hFold] at hRel
      cases hRel

end TokenSequence

end IntDecl

------------------------------------------------------------
-- Compiling Twice
------------------------------------------------------------

namespace IntDecl

/-
  What a source that compiles with folding is folded to can be
  written out and compiled again: it is read as it was
  written, and folding it changes nothing.
-/
theorem compile_spaced
    {options again : Options}
    {src : String}
    {c : Compilation}
    (hFolds : options.foldConstants = true)
    (hAgain : again.foldConstants = true)
    (hCompile : compile options src = .ok c) :
    ∃ d, compile again c.optimized.spaced = .ok d ∧
      d.tokens.Agrees c.optimized ∧
      d.optimized.Agrees c.optimized := by
  rw [compile_eq_ok_iff] at hCompile
  rcases hCompile with ⟨hOk, rfl⟩
  let ts := TokenSequence.ofSource src
  rw [Compilation.optimized_eq_fold hFolds]
  have hRead :
      (TokenSequence.ofSource ts.fold.spaced).Agrees
        ts.fold :=
    TokenSequence.agrees_ofSource_spaced
      (TokenSequence.isValid_of_mem_fold src)
  have hProgram :
      (TokenSequence.ofSource
        ts.fold.spaced).syntaxError? = none :=
    TokenSequence.Agrees.syntaxError?_eq_none hRead.symm
      (TokenSequence.syntaxError?_fold_eq_none hOk)
  have hSettled : ts.fold.fold = ts.fold :=
    TokenSequence.fold_eq_self
      (TokenSequence.settled_body_fold
        (TokenSequence.numeric_ofSource src))
  have hFoldAgain := hRead.fold
  rw [hSettled] at hFoldAgain
  refine
    ⟨_, compile_eq_ok_iff.mpr ⟨hProgram, rfl⟩, hRead, ?_⟩
  rw [Compilation.optimized_eq_fold hAgain]
  exact hFoldAgain

/- A sum out of bounds, and additions behind the program. -/
theorem compile_spaced_of_overflow :
    let src :=
      "int x = 9223372036854775807+1+007*(2 + 3);é4+5 int"
    let c := Compilation.ofTokens {}
      (TokenSequence.ofSource src)
    compile {} src = .ok c ∧
      ∃ d, compile {} c.optimized.spaced = .ok d ∧
        d.tokens.Agrees c.optimized ∧
        d.optimized.Agrees c.optimized := by
  intro src c
  have hCompile : compile {} src = .ok c :=
    compile_eq_ok_iff.mpr ⟨by decide +kernel, rfl⟩
  exact ⟨hCompile, compile_spaced rfl rfl hCompile⟩

end IntDecl
