import IntDecl.Proofs.Acceptance
import IntDecl.Proofs.Addition

/-
  This file shows that folding keeps the values of programs
  whose additions stand between terms.

  Folding cannot reach across the semicolon, so it folds a
  program apart from the text behind it.

  Key theorems include:
    * `TokenSequence.fold_addsUpTo`
    * `denotes_optimized_iff`
-/

------------------------------------------------------------
-- Folding A Program
------------------------------------------------------------

namespace IntDecl

namespace TokenSequence

/-
  Folding a sequence with an additive program in front leaves
  an additive program in front that adds up to the same.
-/
theorem fold_addsUpTo
    {ts : TokenSequence}
    {value : Nat}
    (hOk : ts.syntaxError? = none)
    (hProgram : Lexeme.AddsUpTo ts.program value) :
    ts.fold.syntaxError? = none ∧
      Lexeme.AddsUpTo ts.fold.program value := by
  have hFront := (derives_program hOk).2
  rcases List.prefix_map_iff.mp hFront with
    ⟨tokens, ⟨after, hBody⟩, hTokens⟩
  change ts.program = Token.lexemes tokens at hTokens
  rw [hTokens] at hProgram
  have hLast := hProgram.derives.getLast?_program
  rw [Token.kinds_lexemes, Token.kinds, List.getLast?_map,
    Option.map_eq_some_iff] at hLast
  rcases hLast with ⟨semicolon, hLast, hKind⟩
  have hBarrier : semicolon.IsBarrier := by
    rw [Token.IsBarrier, hKind]
    decide
  have hFolded := Token.contract_addsUpTo hProgram
  have hPrefix :
      Token.lexemes (Token.contract tokens) <+:
        Token.lexemes ts.fold.body := by
    rw [body_fold, ← hBody,
      Token.contract_append
        (hBarrier.apart_of_getLast? hLast after),
      Token.lexemes_append]
    exact List.prefix_append _ _
  rcases program_eq hFolded.derives hPrefix with
    ⟨hFoldOk, hFoldProgram⟩
  rw [hFoldProgram]
  exact ⟨hFoldOk, hFolded⟩

/- A program that was read from a source is valid. -/
theorem isValid_of_mem_program
    {src : String}
    (hOk : (ofSource src).syntaxError? = none) :
    ∀ l ∈ (ofSource src).program, l.IsValid := by
  intro l hMem
  have hBody :=
    (derives_program hOk).2.subset hMem
  rcases List.mem_map.mp hBody with ⟨token, hToken, rfl⟩
  exact
    TokenStream.isValid_of_mem_remaining _ token hToken

end TokenSequence

end IntDecl

------------------------------------------------------------
-- Values Of Compiled Programs
------------------------------------------------------------

namespace IntDecl

/-
  A source that compiles with folding is folded into a program
  with the same value, if no addition of two numbers comes
  right after or right before a `*`.
-/
theorem denotes_optimized_iff
    {options : Options}
    {src : String}
    {c : Compilation}
    (hFolds : options.foldConstants = true)
    (hCompile : compile options src = .ok c)
    (hAfter :
      ¬ [.multiply, .number, .plus, .number] <:+:
        Lexeme.kinds c.tokens.program)
    (hBefore :
      ¬ [.number, .plus, .number, .multiply] <:+:
        Lexeme.kinds c.tokens.program) :
    c.optimized.syntaxError? = none ∧
      ∃ value, ∀ n,
        (Denotes .program c.tokens.program n ↔ n = value) ∧
          (Denotes .program c.optimized.program n ↔
            n = value) := by
  rw [compile_eq_ok_iff] at hCompile
  rcases hCompile with ⟨hOk, rfl⟩
  have hFold :
      (Compilation.ofTokens options
        (TokenSequence.ofSource src)).optimized =
          (TokenSequence.ofSource src).fold :=
    if_pos hFolds
  rw [hFold]
  have hProgram :
      Lexeme.AddsUpTo (TokenSequence.ofSource src).program
        (Lexeme.total (TokenSequence.ofSource src).program) :=
    ⟨(TokenSequence.derives_program hOk).1,
      TokenSequence.isValid_of_mem_program hOk,
      ⟨hAfter, hBefore⟩, rfl⟩
  rcases TokenSequence.fold_addsUpTo hOk hProgram with
    ⟨hFoldOk, hFolded⟩
  refine
    ⟨hFoldOk,
      Lexeme.total (TokenSequence.ofSource src).program, ?_⟩
  intro n
  constructor
  · exact
      Lexeme.denotes_program_iff hProgram.derives
        hProgram.valid n
  · rw [← hFolded.total]
    exact
      Lexeme.denotes_program_iff hFolded.derives
        hFolded.valid n

/- Groups, leading zeros and a sum that is out of bounds. -/
theorem denotes_optimized_of_overflow :
    let src :=
      "int x = 007 + 1 + (2 + 3) * (4 * 5)" ++
        " + 9223372036854775807 + 1; * 2"
    let c := Compilation.ofTokens {}
      (TokenSequence.ofSource src)
    compile {} src = .ok c ∧ c.tokens ≠ c.optimized ∧
      (¬ [.multiply, .number, .plus, .number] <:+:
        Lexeme.kinds c.tokens.program) ∧
      (¬ [.number, .plus, .number, .multiply] <:+:
        Lexeme.kinds c.tokens.program) ∧
      c.optimized.syntaxError? = none ∧
      ∃ value, ∀ n,
        (Denotes .program c.tokens.program n ↔ n = value) ∧
          (Denotes .program c.optimized.program n ↔
            n = value) := by
  intro src c
  have hCompile : compile {} src = .ok c :=
    compile_eq_ok_iff.mpr ⟨by decide +kernel, rfl⟩
  have hAfter :
      ¬ [.multiply, .number, .plus, .number] <:+:
        Lexeme.kinds c.tokens.program := by
    decide +kernel
  have hBefore :
      ¬ [.number, .plus, .number, .multiply] <:+:
        Lexeme.kinds c.tokens.program := by
    decide +kernel
  exact
    ⟨hCompile, by decide +kernel, hAfter, hBefore,
      denotes_optimized_iff rfl hCompile hAfter hBefore⟩

end IntDecl
