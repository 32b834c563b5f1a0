import IntDecl.Compilation
import IntDecl.Proofs.Recognition
import IntDecl.Proofs.Scanning

/-
  This file says exactly which sources compile.

  A source compiles if a program is written out at its front,
  with any text after the semicolon. The options neither
  change which sources compile nor the errors of the others.

  Key definitions include:
    * `TokenSequence.program`

  Key theorems include:
    * `compile_eq_ok_iff`
    * `TokenSequence.derives_program`
    * `exists_compile_eq_ok_iff`
-/

------------------------------------------------------------
-- Results
------------------------------------------------------------

namespace IntDecl

/- The check of declarations finds no errors. -/
theorem compile_eq
    (options : Options)
    (src : String) :
    compile options src =
      match (TokenSequence.ofSource src).syntaxError? with
      | some e => .error e
      | none =>
          .ok (Compilation.ofTokens options
            (TokenSequence.ofSource src)) := by
  have hCheck :
      (if options.checkDeclarations then
          (TokenSequence.ofSource src).check
        else .ok ()) = .ok () := by
    split
    · rfl
    · rfl
  cases hError : (TokenSequence.ofSource src).syntaxError? with
  | some e =>
      simp [compile, hError]
  | none =>
      simp [compile, hError, hCheck]

/- With folding, the optimized tokens are the folded ones. -/
theorem Compilation.optimized_eq_fold
    {options : Options}
    (hFolds : options.foldConstants = true)
    (ts : TokenSequence) :
    (ofTokens options ts).optimized = ts.fold :=
  if_pos hFolds

/- A source compiles if its tokens have no syntax error. -/
theorem compile_eq_ok_iff
    {options : Options}
    {src : String}
    {c : Compilation} :
    compile options src = .ok c ↔
      (TokenSequence.ofSource src).syntaxError? = none ∧
        c = Compilation.ofTokens options
          (TokenSequence.ofSource src) := by
  rw [compile_eq]
  cases (TokenSequence.ofSource src).syntaxError? with
  | some e =>
      simp
  | none =>
      simp [eq_comm]

/- A source fails to compile with the error of its tokens. -/
theorem compile_eq_error_iff
    {options : Options}
    {src : String}
    {e : SyntaxError} :
    compile options src = .error e ↔
      (TokenSequence.ofSource src).syntaxError? =
        some e := by
  rw [compile_eq]
  cases (TokenSequence.ofSource src).syntaxError? with
  | some found =>
      simp
  | none =>
      simp

end IntDecl

------------------------------------------------------------
-- Programs In Front
------------------------------------------------------------

namespace IntDecl

namespace TokenSequence

/-
  The lexemes up to where recognition ends, which is right
  behind the semicolon if a program stands in front.
-/
def program (ts : TokenSequence) : List Lexeme :=
  ts.lexemes.take ts.parse.parser.cursor

/- A program in front is what recognition passes. -/
theorem program_eq
    {ts : TokenSequence}
    {lexemes : List Lexeme}
    (hDerives : Derives .program (Lexeme.kinds lexemes))
    (hPrefix : lexemes <+: Token.lexemes ts.body) :
    ts.syntaxError? = none ∧ ts.program = lexemes := by
  have hAll : lexemes <+: ts.lexemes := by
    rw [TokenSequence.lexemes, tokens, Token.lexemes,
      List.map_append]
    exact hPrefix.trans (List.prefix_append _ _)
  have hKinds : Lexeme.kinds lexemes <+: ts.kinds := by
    rw [TokenSequence.kinds, ← Token.kinds_lexemes]
    exact hAll.map Lexeme.kind
  rcases parse_of_derives hDerives hKinds with ⟨hOk, hEnd⟩
  refine ⟨hOk, ?_⟩
  rw [program, hEnd]
  change ts.lexemes.take (Lexeme.kinds lexemes).length = _
  rw [Lexeme.kinds, List.length_map]
  exact (List.prefix_iff_eq_take.mp hAll).symm

/- What recognition passes is a program. -/
theorem derives_program
    {ts : TokenSequence}
    (hOk : ts.syntaxError? = none) :
    Derives .program (Lexeme.kinds ts.program) ∧
      ts.program <+: Token.lexemes ts.body := by
  rcases exists_derives_of_parse hOk with
    ⟨program, hPrefix, hDerives⟩
  have hBody := prefix_body_of_derives hDerives hPrefix
  rw [← Token.kinds_lexemes, Lexeme.kinds,
    List.prefix_map_iff] at hBody
  rcases hBody with ⟨lexemes, hLexemes, rfl⟩
  have hProgram := (program_eq hDerives hLexemes).2
  rw [hProgram]
  exact ⟨hDerives, hLexemes⟩

end TokenSequence

namespace Derives

/- A program ends with a semicolon. -/
theorem getLast?_program
    {kinds : List TokenKind}
    (hDerives : Derives .program kinds) :
    kinds.getLast? = some .semicolon := by
  cases hDerives with
  | program _ =>
      exact List.getLast?_concat

end Derives

end IntDecl

------------------------------------------------------------
-- Sources That Compile
------------------------------------------------------------

namespace IntDecl

namespace Lexeme

/- A written program ends before any text. -/
theorem allEndBefore_of_program
    {items : List (List Char × Lexeme)}
    (hDerives :
      Derives .program (kinds (items.map Prod.snd)))
    (rest : List Char) :
    AllEndBefore items rest := by
  intro item hLast c _
  have hKind := hDerives.getLast?_program
  rw [kinds, List.map_map, List.getLast?_map,
    Option.mem_def.mp hLast, Option.map_some,
    Option.some_inj] at hKind
  change item.2.kind = .semicolon at hKind
  rw [absorbs, hKind]

end Lexeme

/-
  A source compiles exactly if it is a gap and a lexeme time
  and again, with the kinds of a program, and any text after
  them. The options change neither that nor the errors.
-/
theorem exists_compile_eq_ok_iff
    (options : Options)
    (src : String) :
    ((∃ c, compile options src = .ok c) ↔
        ∃ items rest, Lexeme.Written items ∧
          Derives .program
            (Lexeme.kinds (items.map Prod.snd)) ∧
          src.toList = Lexeme.write items ++ rest) ∧
      ∀ others e,
        compile options src = .error e ↔
          compile others src = .error e := by
  refine ⟨⟨?_, ?_⟩, ?_⟩
  · intro hCompiles
    rcases hCompiles with ⟨c, hCompile⟩
    rw [compile_eq_ok_iff] at hCompile
    rcases TokenSequence.derives_program hCompile.1 with
      ⟨hDerives, hPrefix⟩
    rcases TokenStream.exists_written _ hPrefix with
      ⟨items, rest, hWritten, hItems, hText⟩
    refine ⟨items, rest, hWritten, ?_, hText⟩
    rw [hItems]
    exact hDerives
  · intro hSource
    rcases hSource with
      ⟨items, rest, hWritten, hDerives, hText⟩
    have hEnds :=
      Lexeme.allEndBefore_of_program hDerives rest
    have hBody :
        (TokenSequence.ofSource src).body =
          (TokenStream.ofString src).remaining := rfl
    have hTokens :=
      TokenStream.remaining_write hWritten hEnds 0
    rw [← hText] at hTokens
    have hPrefix :
        items.map Prod.snd <+:
          Token.lexemes
            (TokenSequence.ofSource src).body := by
      rw [hBody, TokenStream.ofString, hTokens,
        Token.lexemes_append, Token.lexemes_place]
      exact List.prefix_append _ _
    have hOk :=
      (TokenSequence.program_eq hDerives hPrefix).1
    exact ⟨_, compile_eq_ok_iff.mpr ⟨hOk, rfl⟩⟩
  · intro others e
    rw [compile_eq_error_iff, compile_eq_error_iff]

end IntDecl
