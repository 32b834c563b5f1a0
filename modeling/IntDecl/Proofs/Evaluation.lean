import IntDecl.Grammar
import IntDecl.Lexeme.Writing

/-
  This file computes the value of a program from left to
  right.

  For the expression at hand and for each expression around
  it an account is kept: the sum of the terms that are
  complete and the product of the factors of the last term.
  The outcome is the value that the grammar gives, so a
  program has no other value. Every program of valid lexemes
  has a value.

  Key definitions include:
    * `Account`
    * `Lexeme.enter`
    * `Lexeme.total`

  Key theorems include:
    * `Lexeme.total_of_denotes`
    * `Lexeme.exists_denotes_of_derives`
    * `Lexeme.denotes_program_iff`
-/

------------------------------------------------------------
-- Accounts
------------------------------------------------------------

namespace IntDecl

/-
  The sum of the complete terms of an expression and the
  product of the factors of its last term.
-/
structure Account where
  sum : Nat
  product : Nat
deriving DecidableEq, Repr

namespace Lexeme

/-
  The accounts after a lexeme, that of the innermost
  expression first.
-/
def enter : List Account → Lexeme → List Account
| [], _ => []
| account :: outer, l =>
    match l.kind, outer with
    | .assign, _ => ⟨0, 1⟩ :: outer
    | .number, _ =>
        ⟨account.sum,
          account.product * Numeral.value l.text.toList⟩ ::
          outer
    | .plus, _ | .semicolon, _ =>
        ⟨account.sum + account.product, 1⟩ :: outer
    | .lparen, _ => ⟨0, 1⟩ :: account :: outer
    | .rparen, [] => []
    | .rparen, around :: rest =>
        ⟨around.sum, around.product *
          (account.sum + account.product)⟩ :: rest
    | _, _ => account :: outer

/- The accounts after some lexemes. -/
def enterAll
    (accounts : List Account)
    (lexemes : List Lexeme) :
    List Account :=
  lexemes.foldl enter accounts

/- The sum in the first account after a program. -/
def total (lexemes : List Lexeme) : Nat :=
  ((enterAll [⟨0, 1⟩] lexemes).headD ⟨0, 1⟩).sum

@[simp] theorem enterAll_nil
    (accounts : List Account) :
    enterAll accounts [] = accounts := rfl

@[simp] theorem enterAll_cons
    (accounts : List Account)
    (l : Lexeme)
    (lexemes : List Lexeme) :
    enterAll accounts (l :: lexemes) =
      enterAll (enter accounts l) lexemes := rfl

@[simp] theorem enterAll_append
    (accounts : List Account)
    (first second : List Lexeme) :
    enterAll accounts (first ++ second) =
      enterAll (enterAll accounts first) second :=
  List.foldl_append

end Lexeme

end IntDecl

------------------------------------------------------------
-- Totals Are Values
------------------------------------------------------------

namespace IntDecl

namespace Lexeme

/-
  What a phrase adds to the accounts. A factor or a term
  multiplies the last product, and an expression adds to what
  the account comes to, if its product is still one.
-/
def Adds
    (lexemes : List Lexeme)
    (value : Nat) :
    NonTerminal → Prop
| .program => total lexemes = value
| .expression =>
    ∀ sum outer, ∃ account,
      enterAll (⟨sum, 1⟩ :: outer) lexemes =
          account :: outer ∧
        account.sum + account.product = sum + value
| _ =>
    ∀ sum product outer,
      enterAll (⟨sum, product⟩ :: outer) lexemes =
        ⟨sum, product * value⟩ :: outer

/- Further factors multiply the last product. -/
theorem enterAll_factors
    {others : List (List Lexeme × Nat)}
    (hOthers :
      ∀ other ∈ others, Adds other.1 other.2 .factor)
    (sum product value : Nat)
    (outer : List Account) :
    enterAll (⟨sum, product * value⟩ :: outer)
        (others.flatMap fun other =>
          ⟨.multiply, "*"⟩ :: other.1) =
      ⟨sum, product *
        others.foldl (fun product other =>
          product * other.2) value⟩ :: outer := by
  induction others generalizing value with
  | nil =>
      rfl
  | cons other others ih =>
      rcases List.forall_mem_cons.mp hOthers with
        ⟨hOther, hLater⟩
      have hFirst :
          enterAll (⟨sum, product * value⟩ :: outer)
              other.1 =
            ⟨sum, product * value * other.2⟩ :: outer :=
        hOther _ _ _
      rw [List.flatMap_cons, enterAll_append, enterAll_cons,
        List.foldl_cons]
      change
        enterAll (enterAll (⟨sum, product * value⟩ :: outer)
          other.1) _ = _
      rw [hFirst, Nat.mul_assoc]
      exact ih hLater (value * other.2)

/- Further terms add to what the account comes to. -/
theorem enterAll_terms
    {others : List (List Lexeme × Nat)}
    (hOthers :
      ∀ other ∈ others, Adds other.1 other.2 .term)
    (sum value : Nat)
    (outer : List Account)
    {account : Account}
    (hAccount :
      account.sum + account.product = sum + value) :
    ∃ last,
      enterAll (account :: outer)
          (others.flatMap fun other =>
            ⟨.plus, "+"⟩ :: other.1) =
          last :: outer ∧
        last.sum + last.product =
          sum + others.foldl (fun sum other =>
            sum + other.2) value := by
  induction others generalizing value account with
  | nil =>
      exact ⟨account, rfl, hAccount⟩
  | cons other others ih =>
      rcases List.forall_mem_cons.mp hOthers with
        ⟨hOther, hLater⟩
      have hFirst :
          enterAll
              (⟨account.sum + account.product, 1⟩ :: outer)
              other.1 =
            ⟨account.sum + account.product,
              1 * other.2⟩ :: outer :=
        hOther _ _ _
      rw [List.flatMap_cons, enterAll_append, enterAll_cons,
        List.foldl_cons]
      change
        ∃ last,
          enterAll (enterAll
            (⟨account.sum + account.product, 1⟩ :: outer)
            other.1) _ = _ ∧ _
      rw [hFirst]
      apply ih hLater (value + other.2)
      simp only
      omega

/- A phrase adds its value to the accounts. -/
theorem adds_of_denotes
    {n : NonTerminal}
    {lexemes : List Lexeme}
    {value : Nat}
    (hDenotes : Denotes n lexemes value) :
    Adds lexemes value n := by
  induction hDenotes with
  | number =>
      intro sum product outer
      simp [enter]
  | group _ ih =>
      intro sum product outer
      rcases ih 0 (⟨sum, product⟩ :: outer) with
        ⟨account, hInner, hAccount⟩
      rw [List.cons_append, enterAll_cons, enterAll_append]
      change
        enterAll (enterAll
          (⟨0, 1⟩ :: ⟨sum, product⟩ :: outer) _) _ = _
      rw [hInner]
      simp only [enterAll_cons, enter, enterAll_nil]
      rw [hAccount, Nat.zero_add]
  | term _ _ ihFirst ihOthers =>
      intro sum product outer
      rw [enterAll_append, ihFirst]
      exact enterAll_factors ihOthers sum product _ outer
  | @expression first value _ _ _ ihFirst ihOthers =>
      intro sum outer
      rw [enterAll_append, ihFirst]
      apply enterAll_terms ihOthers sum value outer
      simp
  | @program word body value _ ih =>
      rcases ih 0 [] with ⟨account, hBody, hAccount⟩
      have hHeader :
          enterAll [⟨0, 1⟩]
              [⟨.intKeyword, "int"⟩, ⟨.identifier, word⟩,
                ⟨.assign, "="⟩] =
            [⟨0, 1⟩] := rfl
      rw [Adds, total, List.append_assoc, enterAll_append,
        hHeader, enterAll_append, hBody]
      simp [enter, hAccount]

/- The value of a program is its total. -/
theorem total_of_denotes
    {lexemes : List Lexeme}
    {value : Nat}
    (hDenotes : Denotes .program lexemes value) :
    total lexemes = value :=
  adds_of_denotes hDenotes

end Lexeme

end IntDecl

------------------------------------------------------------
-- Programs Have Values
------------------------------------------------------------

namespace IntDecl

namespace Lexeme

/- The kinds of lexemes that have one text only. -/
def fixedTexts : List (TokenKind × String) :=
  [(.intKeyword, "int"), (.assign, "="), (.plus, "+"),
    (.multiply, "*"), (.lparen, "("), (.rparen, ")"),
    (.semicolon, ";")]

/- A valid lexeme with a fixed text has that text. -/
theorem eq_of_isValid
    {l : Lexeme}
    {sign : TokenKind}
    (hValid : l.IsValid)
    (hKind : l.kind = sign)
    (text : String)
    (hSign : (sign, text) ∈ fixedTexts) :
    l = ⟨sign, text⟩ := by
  cases l with
  | mk kind word =>
      change kind = sign at hKind
      subst hKind
      simp only [fixedTexts, List.mem_cons, Prod.mk.injEq,
        List.not_mem_nil, or_false] at hSign
      rcases hSign with
        ⟨rfl, rfl⟩ | ⟨rfl, rfl⟩ | ⟨rfl, rfl⟩ |
          ⟨rfl, rfl⟩ | ⟨rfl, rfl⟩ | ⟨rfl, rfl⟩ |
          ⟨rfl, rfl⟩ <;>
        exact congrArg (Lexeme.mk _) hValid

/- Lexemes of kinds that are operands have values. -/
def HasValue
    (n : NonTerminal)
    (lexemeKinds : List TokenKind) :
    Prop :=
  ∀ lexemes,
    kinds lexemes = lexemeKinds →
      (∀ l ∈ lexemes, l.IsValid) →
        ∃ value, Denotes n lexemes value

/- Operands behind their signs have values each. -/
theorem exists_denotes_repetition
    {operand : NonTerminal}
    {sign : TokenKind}
    {others : List (List TokenKind)}
    {lexemes : List Lexeme}
    (text : String)
    (hSign : (sign, text) ∈ fixedTexts)
    (hOthers : ∀ other ∈ others, HasValue operand other)
    (hKinds :
      kinds lexemes = others.flatMap (sign :: ·))
    (hValid : ∀ l ∈ lexemes, l.IsValid) :
    ∃ pieces : List (List Lexeme × Nat),
      (∀ piece ∈ pieces,
          Denotes operand piece.1 piece.2) ∧
        lexemes = pieces.flatMap fun piece =>
          ⟨sign, text⟩ :: piece.1 := by
  induction others generalizing lexemes with
  | nil =>
      refine ⟨[], by simp, ?_⟩
      simpa [kinds] using hKinds
  | cons other others ih =>
      rcases List.forall_mem_cons.mp hOthers with
        ⟨hOther, hLater⟩
      rw [List.flatMap_cons, List.cons_append, kinds,
        List.map_eq_cons_iff] at hKinds
      rcases hKinds with ⟨l, rest, rfl, hKind, hRest⟩
      rw [List.map_eq_append_iff] at hRest
      rcases hRest with ⟨first, later, rfl, hFirst, hMore⟩
      rw [List.forall_mem_cons, List.forall_mem_append]
        at hValid
      rcases hValid with ⟨hHead, hFirstValid, hLaterValid⟩
      rcases hOther first hFirst hFirstValid with
        ⟨value, hDenotes⟩
      rcases ih hLater hMore hLaterValid with
        ⟨pieces, hPieces, hText⟩
      refine ⟨(first, value) :: pieces, ?_, ?_⟩
      · exact List.forall_mem_cons.mpr ⟨hDenotes, hPieces⟩
      · rw [eq_of_isValid hHead hKind text hSign, hText]
        rfl

/- Valid lexemes of a phrase have a value. -/
theorem exists_denotes_of_derives
    {n : NonTerminal}
    {lexemeKinds : List TokenKind}
    (hDerives : Derives n lexemeKinds) :
    HasValue n lexemeKinds := by
  induction hDerives with
  | number =>
      intro lexemes hKinds hValid
      rw [kinds, List.map_eq_singleton_iff] at hKinds
      rcases hKinds with ⟨⟨kind, text⟩, rfl, hKind⟩
      change kind = .number at hKind
      subst hKind
      have hDigits : Numeral.IsDigits text.toList :=
        hValid _ (List.mem_singleton_self _)
      have hNumber := Denotes.number hDigits
      rw [String.ofList_toList] at hNumber
      exact ⟨_, hNumber⟩
  | group _ ih =>
      intro lexemes hKinds hValid
      rw [List.cons_append, kinds, List.map_eq_cons_iff]
        at hKinds
      rcases hKinds with ⟨l, rest, rfl, hOpen, hRest⟩
      rw [List.map_eq_append_iff] at hRest
      rcases hRest with ⟨inner, last, rfl, hInner, hLast⟩
      rw [List.map_eq_singleton_iff] at hLast
      rcases hLast with ⟨r, rfl, hClose⟩
      rw [List.forall_mem_cons, List.forall_mem_append,
        List.forall_mem_singleton] at hValid
      rcases hValid with ⟨hLeft, hMiddle, hRight⟩
      rcases ih inner hInner hMiddle with ⟨value, hDenotes⟩
      rw [eq_of_isValid hLeft hOpen "("
        (by simp [fixedTexts]),
        eq_of_isValid hRight hClose ")"
        (by simp [fixedTexts])]
      exact ⟨value, Denotes.group hDenotes⟩
  | term _ _ ihFirst ihOthers =>
      intro lexemes hKinds hValid
      rw [kinds, List.map_eq_append_iff] at hKinds
      rcases hKinds with ⟨first, rest, rfl, hFirst, hRest⟩
      rw [List.forall_mem_append] at hValid
      rcases ihFirst first hFirst hValid.1 with
        ⟨value, hDenotes⟩
      rcases exists_denotes_repetition "*"
          (by simp [fixedTexts]) ihOthers hRest hValid.2 with
        ⟨pieces, hPieces, rfl⟩
      exact ⟨_, Denotes.term hDenotes hPieces⟩
  | expression _ _ ihFirst ihOthers =>
      intro lexemes hKinds hValid
      rw [kinds, List.map_eq_append_iff] at hKinds
      rcases hKinds with ⟨first, rest, rfl, hFirst, hRest⟩
      rw [List.forall_mem_append] at hValid
      rcases ihFirst first hFirst hValid.1 with
        ⟨value, hDenotes⟩
      rcases exists_denotes_repetition "+"
          (by simp [fixedTexts]) ihOthers hRest hValid.2 with
        ⟨pieces, hPieces, rfl⟩
      exact ⟨_, Denotes.expression hDenotes hPieces⟩
  | @program body _ ih =>
      intro lexemes hKinds hValid
      simp only [List.cons_append, List.nil_append, kinds,
        List.map_eq_cons_iff] at hKinds
      rcases hKinds with ⟨first, _, rfl, hInt, name, _, rfl,
        hName, equals, rest, rfl, hAssign, hRest⟩
      rw [List.map_eq_append_iff] at hRest
      rcases hRest with ⟨middle, last, rfl, hBody, hLast⟩
      rw [List.map_eq_singleton_iff] at hLast
      rcases hLast with ⟨semicolon, rfl, hEnd⟩
      simp only [List.forall_mem_cons,
        List.forall_mem_append] at hValid
      rcases hValid with
        ⟨hFirst, _, hEquals, hMiddle, hStop, _⟩
      rcases ih middle hBody hMiddle with ⟨value, hDenotes⟩
      rcases name with ⟨kind, word⟩
      change kind = .identifier at hName
      subst hName
      rw [eq_of_isValid hFirst hInt "int"
          (by simp [fixedTexts]),
        eq_of_isValid hEquals hAssign "="
          (by simp [fixedTexts]),
        eq_of_isValid hStop hEnd ";"
          (by simp [fixedTexts])]
      exact ⟨value, Denotes.program hDenotes⟩

/-
  The valid lexemes of a program have one value, the total of
  their numbers by the accounts.
-/
theorem denotes_program_iff
    {lexemes : List Lexeme}
    (hDerives : Derives .program (kinds lexemes))
    (hValid : ∀ l ∈ lexemes, l.IsValid)
    (value : Nat) :
    Denotes .program lexemes value ↔
      value = total lexemes := by
  rcases exists_denotes_of_derives hDerives lexemes rfl
      hValid with
    ⟨known, hKnown⟩
  have hTotal := total_of_denotes hKnown
  constructor
  · intro hDenotes
    exact (total_of_denotes hDenotes).symm
  · intro hValue
    rw [hValue, hTotal]
    exact hKnown

end Lexeme

end IntDecl
