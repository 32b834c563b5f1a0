import IntDecl.Proofs.Contraction
import IntDecl.Proofs.Evaluation
import IntDecl.Proofs.Phase

/-
  This file puts sums in the place of additions in programs.

  A number and the addition of two numbers lead to the same
  phase, so a program stays a program. It keeps its value
  where the addition stands between terms, that is, where no
  `*` comes right before or right after it. The program that
  comes about has no other additions next to a `*` than there
  were before.

  Key definitions include:
    * `Additive`
    * `Lexeme.AddsUpTo`

  Key theorems include:
    * `Derives.addition_iff`
    * `Additive.of_addition`
    * `Lexeme.total_addition`
    * `Token.contract_addsUpTo`
-/

------------------------------------------------------------
-- Phases Around A Number
------------------------------------------------------------

namespace IntDecl

namespace Phase

/- An addition leads where a number leads. -/
theorem read?_addition
    (phase : Phase)
    (kinds : List TokenKind) :
    phase.read? (.number :: .plus :: .number :: kinds) =
      phase.read? (.number :: kinds) := by
  cases phase <;> rfl

/- The kinds that an operand can follow. -/
theorem mem_of_next?_operand
    {phase : Phase}
    {kind : TokenKind}
    {depth : Nat}
    (hNext : phase.next? kind = some (.operand depth)) :
    kind ∈ [.assign, .lparen, .plus, .multiply] := by
  unfold next? at hNext
  split at hNext <;> cases hNext <;> decide

/- The kinds that can follow an operand. -/
theorem mem_of_next?_operator
    {phase : Phase}
    {kind : TokenKind}
    {depth : Nat}
    (hNext : (operator depth).next? kind = some phase) :
    kind ∈ [.plus, .multiply, .rparen, .semicolon] := by
  unfold next? at hNext
  split at hNext <;> simp_all

/- The token before an operand of a program. -/
theorem exists_last_of_operand
    {kinds : List TokenKind}
    {depth : Nat}
    (hRead : start.read? kinds = some (.operand depth)) :
    ∃ front last, kinds = front ++ [last] ∧
      last ∈ [.assign, .lparen, .plus, .multiply] := by
  rcases kinds.eq_nil_or_concat with hNil | hConcat
  · subst hNil
    cases hRead
  · rcases hConcat with ⟨front, last, hKinds⟩
    rw [List.concat_eq_append] at hKinds
    rw [hKinds, read?_append, Option.bind_eq_some_iff]
      at hRead
    rcases hRead with ⟨phase, _, hLast⟩
    rw [read?_cons, Option.bind_eq_some_iff] at hLast
    rcases hLast with ⟨next, hNext, hEnd⟩
    cases hEnd
    exact ⟨front, last, hKinds, mem_of_next?_operand hNext⟩

/- The token after an operand of a program. -/
theorem exists_head_of_operator
    {kinds : List TokenKind}
    {depth : Nat}
    (hRead :
      (operator depth).read? kinds = some .finished) :
    ∃ next rest, kinds = next :: rest ∧
      next ∈ [.plus, .multiply, .rparen, .semicolon] := by
  cases kinds with
  | nil =>
      cases hRead
  | cons next rest =>
      rw [read?_cons, Option.bind_eq_some_iff] at hRead
      rcases hRead with ⟨phase, hNext, _⟩
      exact ⟨next, rest, rfl, mem_of_next?_operator hNext⟩

end Phase

namespace Derives

/- A sum is as good as an addition in a program. -/
theorem addition_iff
    (before after : List TokenKind) :
    Derives .program
        (before ++ .number :: .plus :: .number :: after) ↔
      Derives .program (before ++ .number :: after) := by
  rw [← Phase.read?_eq_finished_iff,
    ← Phase.read?_eq_finished_iff, Phase.read?_append,
    Phase.read?_append]
  simp only [Phase.read?_addition]

/- What stands around a number of a program. -/
theorem around_number
    {before after : List TokenKind}
    (hDerives :
      Derives .program (before ++ .number :: after)) :
    (∃ front last, before = front ++ [last] ∧
        last ∈ [.assign, .lparen, .plus, .multiply]) ∧
      (∃ next rest, after = next :: rest ∧
        next ∈ [.plus, .multiply, .rparen, .semicolon]) := by
  rw [← Phase.read?_eq_finished_iff, Phase.read?_append,
    Option.bind_eq_some_iff] at hDerives
  rcases hDerives with ⟨phase, hBefore, hNumber⟩
  cases phase with
  | operand depth =>
      exact
        ⟨Phase.exists_last_of_operand hBefore,
          Phase.exists_head_of_operator hNumber⟩
  | start | typed | named | operator depth | finished =>
      cases hNumber

end Derives

end IntDecl

------------------------------------------------------------
-- Additions Between Terms
------------------------------------------------------------

namespace IntDecl

/-
  The lists of kinds in which no addition of two numbers
  comes right after or right before a `*`.
-/
def Additive (kinds : List TokenKind) : Prop :=
  ¬ [.multiply, .number, .plus, .number] <:+: kinds ∧
    ¬ [.number, .plus, .number, .multiply] <:+: kinds

namespace Additive

/-
  Kinds that occur where a sum is in place of an addition
  occur before that too, or have the sum inside.
-/
theorem infix_of_addition
    {pattern before after : List TokenKind}
    (hPattern : pattern <:+: before ++ .number :: after) :
    pattern <:+:
        before ++ .number :: .plus :: .number :: after ∨
      ∃ first second, first ≠ [] ∧ second ≠ [] ∧
        pattern = first ++ .number :: second ∧
        first <:+ before ∧ second <+: after := by
  have hEq :
      before ++ .number :: after =
        before ++ [.number] ++ after := by
    simp
  rw [hEq, List.infix_append_iff_ne_nil] at hPattern
  rcases hPattern with
    hLeft | hRight | ⟨left, second, hLeft, hSecond, hParts,
      hSuffix, hPrefix⟩
  · left
    apply hLeft.trans
    exact ⟨[], .plus :: .number :: after, by simp⟩
  · left
    apply hRight.trans
    exact
      ⟨before ++ [.number, .plus, .number], [], by simp⟩
  · rcases List.suffix_concat_iff.mp hSuffix with
      hNil | ⟨first, hFirst, hBefore⟩
    · exact absurd hNil hLeft
    · rw [hFirst, List.append_assoc, List.singleton_append]
        at hParts
      by_cases hNil : first = []
      · left
        rw [hParts, hNil, List.nil_append]
        rcases hPrefix with ⟨rest, rfl⟩
        exact
          ⟨before ++ [.number, .plus], rest, by simp⟩
      · right
        exact
          ⟨first, second, hNil, hSecond, hParts, hBefore,
            hPrefix⟩

/- The inner elements of a list of four. -/
theorem inner_of_four
    {a b c d kind : TokenKind}
    {first second : List TokenKind}
    (hFirst : first ≠ [])
    (hSecond : second ≠ [])
    (hParts : [a, b, c, d] = first ++ kind :: second) :
    (first = [a] ∧ kind = b ∧ second = [c, d]) ∨
      (first = [a, b] ∧ kind = c ∧ second = [d]) := by
  match first with
  | [] =>
      exact absurd rfl hFirst
  | [_] =>
      cases hParts
      exact .inl ⟨rfl, rfl, rfl⟩
  | [_, _] =>
      cases hParts
      exact .inr ⟨rfl, rfl, rfl⟩
  | [_, _, _] =>
      cases hParts
      exact absurd rfl hSecond
  | _ :: _ :: _ :: _ :: first =>
      have hLength := congrArg List.length hParts
      simp only [List.length_cons, List.length_append,
        List.length_nil] at hLength
      omega

/- A sum in place of an addition adds no occurrences. -/
theorem of_addition
    {before after : List TokenKind}
    (hAdditive :
      Additive
        (before ++ .number :: .plus :: .number :: after)) :
    Additive (before ++ .number :: after) := by
  constructor
  · intro hPattern
    rcases infix_of_addition hPattern with
      hFound | ⟨first, second, hFirst, hSecond, hParts,
        hSuffix, _⟩
    · exact hAdditive.1 hFound
    · -- The sum is the number right behind the `*`.
      rcases inner_of_four hFirst hSecond hParts with
        ⟨rfl, _, _⟩ | ⟨_, hKind, _⟩
      · rcases hSuffix with ⟨front, hBefore⟩
        apply hAdditive.1
        exact ⟨front, after, by simp [← hBefore]⟩
      · cases hKind
  · intro hPattern
    rcases infix_of_addition hPattern with
      hFound | ⟨first, second, hFirst, hSecond, hParts,
        _, hPrefix⟩
    · exact hAdditive.2 hFound
    · -- The sum is the number right in front of the `*`.
      rcases inner_of_four hFirst hSecond hParts with
        ⟨_, hKind, _⟩ | ⟨_, _, rfl⟩
      · cases hKind
      · rcases hPrefix with ⟨rest, hAfter⟩
        apply hAdditive.2
        exact ⟨before, rest, by simp [← hAfter]⟩

/-
  An addition in a program that is additive stands between
  terms.
-/
theorem around_addition
    {before after : List TokenKind}
    (hDerives :
      Derives .program
        (before ++ .number :: .plus :: .number :: after))
    (hAdditive :
      Additive
        (before ++ .number :: .plus :: .number :: after)) :
    (∃ front last, before = front ++ [last] ∧
        last ∈ [.assign, .lparen, .plus]) ∧
      (∃ next rest, after = next :: rest ∧
        next ∈ [.plus, .rparen, .semicolon]) := by
  rw [Derives.addition_iff] at hDerives
  rcases hDerives.around_number with
    ⟨⟨front, last, rfl, hLast⟩, ⟨next, rest, rfl, hNext⟩⟩
  refine ⟨⟨front, last, rfl, ?_⟩, ⟨next, rest, rfl, ?_⟩⟩
  · have hOther : last ≠ .multiply := by
      intro hStar
      apply hAdditive.1
      exact ⟨front, next :: rest, by simp [hStar]⟩
    simp_all
  · have hOther : next ≠ .multiply := by
      intro hStar
      apply hAdditive.2
      exact ⟨front ++ [last], rest, by simp [hStar]⟩
    simp_all

end Additive

end IntDecl

------------------------------------------------------------
-- Totals Of Sums
------------------------------------------------------------

namespace IntDecl

namespace Lexeme

/-
  Two numbers with a plus sign between them and a number that
  is their sum.
-/
structure IsSum (lhs op rhs sum : Lexeme) : Prop where
  left : lhs.kind = .number
  plus : op.kind = .plus
  right : rhs.kind = .number
  number : sum.kind = .number
  value :
    Numeral.value sum.text.toList =
      Numeral.value lhs.text.toList +
        Numeral.value rhs.text.toList

/- The kinds of lexemes with an addition among them. -/
theorem IsSum.kinds_addition
    {lhs op rhs sum : Lexeme}
    (hSum : IsSum lhs op rhs sum)
    (before after : List Lexeme) :
    kinds (before ++ lhs :: op :: rhs :: after) =
      kinds before ++
        .number :: .plus :: .number :: kinds after := by
  simp [hSum.left, hSum.plus, hSum.right]

/- The kinds of lexemes with a sum among them. -/
theorem IsSum.kinds_sum
    {lhs op rhs sum : Lexeme}
    (hSum : IsSum lhs op rhs sum)
    (before after : List Lexeme) :
    kinds (before ++ sum :: after) =
      kinds before ++ .number :: kinds after := by
  simp [hSum.number]

/- The product of the account at hand is one. -/
def IsFresh (accounts : List Account) : Prop :=
  ∀ account ∈ accounts.head?, account.product = 1

/- Each term begins with a product of one. -/
theorem isFresh_enter
    {l : Lexeme}
    (hKind : l.kind ∈ [.assign, .lparen, .plus])
    (accounts : List Account) :
    IsFresh (enter accounts l) := by
  intro account hHead
  cases accounts with
  | nil =>
      cases hHead
  | cons first outer =>
      simp only [List.mem_cons, List.not_mem_nil,
        or_false] at hKind
      rcases hKind with hKind | hKind | hKind <;>
        simp only [enter, hKind, List.head?_cons,
          Option.mem_some_iff] at hHead <;>
        rw [← hHead]

/-
  Where a term begins, two numbers with a plus sign between
  them count as their sum does, once the last term ends.
-/
theorem enterAll_addition
    {accounts : List Account}
    {lhs op rhs sum next : Lexeme}
    (hFresh : IsFresh accounts)
    (hSum : IsSum lhs op rhs sum)
    (hNext : next.kind ∈ [.plus, .rparen, .semicolon]) :
    enterAll accounts [lhs, op, rhs, next] =
      enterAll accounts [sum, next] := by
  cases accounts with
  | nil =>
      rfl
  | cons account outer =>
      have hOne : account.product = 1 :=
        hFresh account rfl
      simp only [List.mem_cons, List.not_mem_nil,
        or_false] at hNext
      rcases hSum with
        ⟨hLeft, hPlus, hRight, hNumber, hValue⟩
      rcases hNext with hNext | hNext | hNext
      · simp [enter, hLeft, hPlus, hRight, hNumber, hNext,
          hOne, hValue, Nat.add_assoc]
      · cases outer <;>
          simp [enter, hLeft, hPlus, hRight, hNumber,
            hNext, hOne, hValue, Nat.add_assoc]
      · simp [enter, hLeft, hPlus, hRight, hNumber, hNext,
          hOne, hValue, Nat.add_assoc]

/-
  A sum in place of an addition between terms leaves the total
  of a program as it is.
-/
theorem total_addition
    {before after : List Lexeme}
    {lhs op rhs sum : Lexeme}
    (hSum : IsSum lhs op rhs sum)
    (hDerives :
      Derives .program
        (kinds before ++
          .number :: .plus :: .number :: kinds after))
    (hAdditive :
      Additive
        (kinds before ++
          .number :: .plus :: .number :: kinds after)) :
    total (before ++ sum :: after) =
      total (before ++ lhs :: op :: rhs :: after) := by
  rcases hAdditive.around_addition hDerives with
    ⟨⟨_, _, hBefore, hLast⟩, ⟨_, _, hAfter, hNext⟩⟩
  rw [kinds, List.map_eq_append_iff] at hBefore
  rcases hBefore with ⟨front, _, rfl, _, hBefore⟩
  rw [List.map_eq_singleton_iff] at hBefore
  rcases hBefore with ⟨last, rfl, rfl⟩
  rw [kinds, List.map_eq_cons_iff] at hAfter
  rcases hAfter with ⟨next, rest, rfl, rfl, _⟩
  have hFresh :
      IsFresh (enterAll [⟨0, 1⟩] (front ++ [last])) := by
    rw [enterAll_append]
    exact isFresh_enter hLast _
  have hWindow := enterAll_addition hFresh hSum hNext
  have hShort :
      front ++ [last] ++ sum :: next :: rest =
        front ++ [last] ++ [sum, next] ++ rest := by
    simp
  have hLong :
      front ++ [last] ++ lhs :: op :: rhs :: next :: rest =
        front ++ [last] ++ [lhs, op, rhs, next] ++ rest := by
    simp
  rw [total, total, hShort, hLong,
    enterAll_append _ _ rest, enterAll_append _ _ rest,
    enterAll_append _ (front ++ [last]) [sum, next],
    enterAll_append _ (front ++ [last]) [lhs, op, rhs, next],
    hWindow]

end Lexeme

end IntDecl

------------------------------------------------------------
-- Folding Keeps Totals
------------------------------------------------------------

namespace IntDecl

namespace Lexeme

/-
  Lexemes of an additive program with a known total. Folding
  changes the lexemes, but not what they add up to.
-/
structure AddsUpTo
    (lexemes : List Lexeme)
    (value : Nat) : Prop where
  derives : Derives .program (kinds lexemes)
  valid : ∀ l ∈ lexemes, l.IsValid
  additive : Additive (kinds lexemes)
  total : total lexemes = value

end Lexeme

namespace Token

/- The sum of two valid numbers is valid and their sum. -/
theorem isSum_of_window?
    {lhs op rhs sum : Token}
    (hWindow : window? lhs op rhs = some sum)
    (hLeft : lhs.toLexeme.IsValid)
    (hRight : rhs.toLexeme.IsValid) :
    Lexeme.IsSum lhs.toLexeme op.toLexeme rhs.toLexeme
        sum.toLexeme ∧
      sum.toLexeme.IsValid := by
  rcases window?_eq_some_iff.mp hWindow with
    ⟨⟨hFirst, hPlus, hSecond⟩, hSum⟩
  have hNumber := kind_of_sum? hSum
  rw [Lexeme.IsValid, hFirst] at hLeft
  rw [Lexeme.IsValid, hSecond] at hRight
  rcases value_of_sum? hLeft hRight hSum with
    ⟨hDigits, hValue⟩
  refine ⟨⟨hFirst, hPlus, hSecond, hNumber, hValue⟩, ?_⟩
  rw [Lexeme.IsValid, hNumber]
  exact hDigits

/- A contraction keeps what the tokens add up to. -/
theorem Contracts.addsUpTo
    {tokens others : List Token}
    {value : Nat}
    (hContracts : Contracts tokens others)
    (hTokens : Lexeme.AddsUpTo (lexemes tokens) value) :
    Lexeme.AddsUpTo (lexemes others) value := by
  rcases hContracts with @⟨before, after, lhs, op, rhs, sum,
    hWindow⟩
  rcases hTokens with
    ⟨hDerives, hValid, hAdditive, hTotal⟩
  simp only [lexemes_append, lexemes_cons]
    at hDerives hValid hAdditive hTotal ⊢
  have hBefore := (List.forall_mem_append.mp hValid).1
  have hWindowValid := (List.forall_mem_append.mp hValid).2
  simp only [List.forall_mem_cons] at hWindowValid
  rcases hWindowValid with ⟨hLeft, _, hRight, hAfter⟩
  rcases isSum_of_window? hWindow hLeft hRight with
    ⟨hSum, hSumValid⟩
  rw [hSum.kinds_addition] at hDerives hAdditive
  constructor
  · rw [hSum.kinds_sum]
    exact (Derives.addition_iff _ _).mp hDerives
  · rw [List.forall_mem_append, List.forall_mem_cons]
    exact ⟨hBefore, hSumValid, hAfter⟩
  · rw [hSum.kinds_sum]
    exact hAdditive.of_addition
  · rw [Lexeme.total_addition hSum hDerives hAdditive]
    exact hTotal

/- Folding keeps what the tokens add up to. -/
theorem contract_addsUpTo
    {tokens : List Token}
    {value : Nat}
    (hTokens : Lexeme.AddsUpTo (lexemes tokens) value) :
    Lexeme.AddsUpTo (lexemes (contract tokens)) value := by
  have hStep :
      ∀ before after, Contracts before after →
        Lexeme.AddsUpTo (lexemes before) value →
          Lexeme.AddsUpTo (lexemes after) value := by
    intro before after hContracts hBefore
    exact hContracts.addsUpTo hBefore
  exact contract_induction hStep hTokens

end Token

end IntDecl
