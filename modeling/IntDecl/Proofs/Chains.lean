import IntDecl.Proofs.Partition
import IntDecl.Proofs.Settling

/-
  This file follows the totals of additions through folding
  where all numbers are runs of digits.

  The tokens fall into pieces: the chains of numbers with plus
  signs between them, as long as they can be, and the single
  tokens besides. Folding works on each piece by itself. A
  chain whose total is in bounds becomes the one number that
  is its total, written without leading zeros, because no sum
  on the way is larger than the total. Any other chain becomes
  a chain with the same total.

  Key definitions include:
    * `Numeral.IsCanonical`
    * `Token.IsChain`
    * `Token.worth`
    * `Token.LongestChain`
    * `Token.Pieces`
    * `Token.IsTotal`
    * `Token.FoldsTo`

  Key theorems include:
    * `Numeral.isCanonical_toDigits`
    * `Token.IsChain.contract_keeps`
    * `Token.IsChain.exists_addsTo`
    * `Token.Yields.isTotal`
    * `Token.exists_pieces`
    * `Token.Pieces.exists_of_longestChain`
    * `Token.Pieces.contract_flatten`
    * `Token.Pieces.foldsTo_contract`
    * `TokenSequence.exists_pieces_foldsTo`
-/

------------------------------------------------------------
-- Canonical Numerals
------------------------------------------------------------

namespace IntDecl

namespace Numeral

/-
  The form in which a number is written: digits without a
  sign, and no zero in front of another digit.
-/
structure IsCanonical (cs : List Char) (n : Nat) : Prop where
  digits : IsDigits cs
  value_eq : value cs = n
  noLeadingZero : cs.head? = some '0' → cs = ['0']

/- Only the digits of zero begin with a zero. -/
theorem eq_zero_of_head?_toDigits
    {n : Nat}
    (hHead : (Nat.toDigits 10 n).head? = some '0') :
    n = 0 := by
  induction n using Nat.strongRecOn with
  | ind n ih =>
      rw [Nat.toDigits_eq_if (by decide)] at hHead
      split at hHead
      case isTrue hSmall =>
        rw [List.head?_cons, Option.some_inj] at hHead
        exact Nat.digitChar_eq_zero.mp hHead
      case isFalse hLarge =>
        rw [List.head?_append_of_ne_nil _
          Nat.toDigits_ne_nil] at hHead
        have hTens := ih (n / 10) (by omega) hHead
        omega

/- The digits of a number are its canonical form. -/
theorem isCanonical_toDigits
    (n : Nat) :
    IsCanonical (Nat.toDigits 10 n) n where
  digits := isDigits_toDigits n
  value_eq := value_toDigits n
  noLeadingZero hHead := by
    rw [eq_zero_of_head?_toDigits hHead]
    exact Nat.toDigits_zero 10

end Numeral

end IntDecl

------------------------------------------------------------
-- Chains And Totals
------------------------------------------------------------

namespace IntDecl

namespace Token

/- Numbers with plus signs between them. -/
inductive IsChain : List Token → Prop where
| number
    {token : Token}
    (hKind : token.kind = .number) :
    IsChain [token]
| plus
    {lhs op : Token}
    {tokens : List Token}
    (hLeft : lhs.kind = .number)
    (hOp : op.kind = .plus)
    (hTokens : IsChain tokens) :
    IsChain (lhs :: op :: tokens)

/- The number that a token stands for, zero for others. -/
def amount (token : Token) : Nat :=
  if token.kind = .number then
    Numeral.value token.text.toList
  else
    0

/- The sum of all numbers among some tokens, of any size. -/
def worth : List Token → Nat
| [] => 0
| token :: tokens => token.amount + worth tokens

@[simp] theorem worth_nil :
    worth [] = 0 :=
  rfl

@[simp] theorem worth_cons
    (token : Token)
    (tokens : List Token) :
    worth (token :: tokens) = token.amount + worth tokens :=
  rfl

@[simp] theorem worth_append
    (first second : List Token) :
    worth (first ++ second) = worth first + worth second := by
  induction first with
  | nil =>
      simp
  | cons token first ih =>
      simp [ih, Nat.add_assoc]

/- One token is worth its amount. -/
theorem worth_singleton
    (token : Token) :
    worth [token] = token.amount :=
  Nat.add_zero token.amount

/- The amount of a number is its value. -/
theorem amount_of_number
    {token : Token}
    (hKind : token.kind = .number) :
    token.amount = Numeral.value token.text.toList :=
  if_pos hKind

/- A plus sign has no amount. -/
theorem amount_of_plus
    {token : Token}
    (hKind : token.kind = .plus) :
    token.amount = 0 := by
  rw [amount, if_neg]
  rw [hKind]
  decide

/- Plus signs add nothing to what a chain is worth. -/
theorem worth_addition
    (lhs : Token)
    {op : Token}
    (tokens : List Token)
    (hOp : op.kind = .plus) :
    worth (lhs :: op :: tokens) =
      lhs.amount + worth tokens := by
  rw [worth_cons, worth_cons, amount_of_plus hOp,
    Nat.zero_add]

/- A chain begins with a number. -/
theorem IsChain.exists_cons
    {tokens : List Token}
    (hChain : IsChain tokens) :
    ∃ first rest, tokens = first :: rest ∧
      first.kind = .number := by
  cases hChain with
  | number hKind =>
      exact ⟨_, _, rfl, hKind⟩
  | plus hLeft _ _ =>
      exact ⟨_, _, rfl, hLeft⟩

/- A chain ends with a number. -/
theorem IsChain.getLast?_kinds
    {tokens : List Token}
    (hChain : IsChain tokens) :
    (kinds tokens).getLast? = some .number := by
  induction hChain with
  | number hKind =>
      rw [← hKind]
      rfl
  | @plus lhs op tokens hLeft hOp hTokens ih =>
      rcases hTokens.exists_cons with ⟨first, rest, rfl, _⟩
      exact ih

/- Any other number may take the place of the first one. -/
theorem IsChain.of_head
    {first other : Token}
    {rest : List Token}
    (hChain : IsChain (first :: rest))
    (hOther : other.kind = .number) :
    IsChain (other :: rest) := by
  cases hChain with
  | number _ =>
      exact .number hOther
  | plus _ hOp hTokens =>
      exact .plus hOther hOp hTokens

/- In a chain there is an addition in front of a number. -/
theorem IsChain.suffix_of_number
    {before after : List Token}
    {token : Token}
    (hChain : IsChain (before ++ token :: after))
    (hKind : token.kind = .number) :
    before = [] ∨ [.number, .plus] <:+ kinds before := by
  generalize hTokens : before ++ token :: after = tokens
    at hChain
  induction hChain generalizing before with
  | number _ =>
      rcases List.append_eq_singleton_iff.mp hTokens with
        ⟨hNil, _⟩ | ⟨_, hNone⟩
      · exact .inl hNil
      · cases hNone
  | @plus lhs op tokens hLeft hOp _ ih =>
      match before with
      | [] =>
          exact .inl rfl
      | [_] =>
          cases hTokens
          rw [hKind] at hOp
          cases hOp
      | _ :: _ :: before =>
          cases hTokens
          right
          change _ <:+ [lhs.kind, op.kind] ++ kinds before
          rcases ih rfl with rfl | hSuffix
          · rw [hLeft, hOp]
            exact List.suffix_rfl
          · exact hSuffix.trans (List.suffix_append _ _)

/-
  Of two chains at the same place, none is longer than one
  behind which no addition goes on.
-/
theorem IsChain.length_le
    {first second more rest : List Token}
    (hFirst : IsChain first)
    (hSecond : IsChain second)
    (hEnds : ¬ [.plus, .number] <+: kinds rest)
    (hSame : first ++ more = second ++ rest) :
    first.length ≤ second.length := by
  induction hSecond generalizing first with
  | number _ =>
      cases hFirst with
      | number _ =>
          exact Nat.le_refl _
      | plus _ hOp hTokens =>
          rcases hTokens.exists_cons with
            ⟨rhs, others, rfl, hRight⟩
          cases hSame
          apply absurd _ hEnds
          rw [← hOp, ← hRight]
          exact ⟨kinds (others ++ more), rfl⟩
  | plus _ _ _ ih =>
      cases hFirst with
      | number _ =>
          simp only [List.length_cons, List.length_nil]
          omega
      | plus _ _ hTokens =>
          simp only [List.cons_append, List.cons.injEq]
            at hSame
          have hLe := ih hTokens hSame.2.2
          simp only [List.length_cons]
          omega

/-
  Two chains at the same place are the same if behind neither
  of them an addition goes on.
-/
theorem IsChain.eq_of_append
    {first second more rest : List Token}
    (hFirst : IsChain first)
    (hSecond : IsChain second)
    (hStops : ¬ [.plus, .number] <+: kinds more)
    (hEnds : ¬ [.plus, .number] <+: kinds rest)
    (hSame : first ++ more = second ++ rest) :
    first = second ∧ more = rest := by
  have hLe := hFirst.length_le hSecond hEnds hSame
  have hGe := hSecond.length_le hFirst hStops hSame.symm
  exact List.append_inj hSame (Nat.le_antisymm hLe hGe)

end Token

end IntDecl

------------------------------------------------------------
-- Chains Under Contraction
------------------------------------------------------------

namespace IntDecl

namespace Token

/- A number may take the place of an addition in a chain. -/
theorem IsChain.of_addition
    {before after : List Token}
    {lhs op rhs sum : Token}
    (hChain : IsChain (before ++ lhs :: op :: rhs :: after))
    (hAddition : lhs.IsAddition op rhs)
    (hSum : sum.kind = .number) :
    IsChain (before ++ sum :: after) := by
  generalize hTokens :
    before ++ lhs :: op :: rhs :: after = tokens at hChain
  induction hChain generalizing before with
  | number _ =>
      rcases List.append_eq_singleton_iff.mp hTokens with
        ⟨_, hOne⟩ | ⟨_, hNone⟩
      · cases hOne
      · cases hNone
  | plus hFirst hPlus hRest ih =>
      match before with
      | [] =>
          cases hTokens
          exact hRest.of_head hSum
      | [_] =>
          -- The addition cannot begin at a plus sign.
          cases hTokens
          rw [hAddition.1] at hPlus
          cases hPlus
      | _ :: _ :: before =>
          cases hTokens
          exact .plus hFirst hPlus (ih rfl)

/- Contractions of a chain are chains. -/
theorem Contracts.isChain
    {tokens others : List Token}
    (hContracts : Contracts tokens others)
    (hChain : IsChain tokens) :
    IsChain others := by
  rcases hContracts with @⟨before, after, lhs, op, rhs, sum,
    hWindow⟩
  exact
    hChain.of_addition (window?_eq_some_iff.mp hWindow).1
      (eq_of_window? hWindow).1

/- Contractions of runs of digits keep the total. -/
theorem Contracts.worth_eq
    {tokens others : List Token}
    (hContracts : Contracts tokens others)
    (hNumeric : Numeric tokens) :
    worth others = worth tokens := by
  rcases hContracts with @⟨before, after, lhs, op, rhs, sum,
    hWindow⟩
  rcases (window?_eq_some_iff.mp hWindow).1 with
    ⟨hLeft, hOp, hRight⟩
  have hSum := (eq_of_window? hWindow).1
  have hValue :=
    (value_of_window? hWindow (hNumeric lhs (by simp))
      (hNumeric rhs (by simp))).2
  simp only [worth_append, worth_cons, amount_of_plus hOp,
    amount_of_number hLeft, amount_of_number hRight,
    amount_of_number hSum, hValue]
  omega

/- Folding a chain leaves a chain with the same total. -/
theorem IsChain.contract_keeps
    {tokens : List Token}
    (hChain : IsChain tokens)
    (hNumeric : Numeric tokens) :
    IsChain (contract tokens) ∧
      worth (contract tokens) = worth tokens := by
  have hStep :
      ∀ before after, Contracts before after →
        (Numeric before ∧ IsChain before ∧
            worth before = worth tokens) →
          Numeric after ∧ IsChain after ∧
            worth after = worth tokens := by
    intro before after hContracts hBefore
    rcases hBefore with ⟨hDigits, hFirst, hWorth⟩
    refine
      ⟨hContracts.numeric hDigits,
        hContracts.isChain hFirst, ?_⟩
    rw [hContracts.worth_eq hDigits, hWorth]
  exact
    (contract_induction hStep ⟨hNumeric, hChain, rfl⟩).2

end Token

end IntDecl

------------------------------------------------------------
-- Chains That Add Up
------------------------------------------------------------

namespace IntDecl

namespace Token

/- A run of digits is read as its amount, if in bounds. -/
theorem read?_text_eq_some_iff
    {token : Token}
    {n : Int}
    (hKind : token.kind = .number)
    (hDigits : token.IsNumeric) :
    Numeral.read? token.text = some n ↔
      n = token.amount ∧ Numeral.InBounds token.amount := by
  rw [amount_of_number hKind,
    Numeral.read?_of_isDigits (hDigits hKind),
    Option.ite_none_right_eq_some, Option.some_inj, and_comm,
    eq_comm]

/-
  Behind tokens that add up, the numbers of a chain are added
  one by one, and no sum is larger than the last.
-/
theorem AddsTo.exists_append
    {front tokens : List Token}
    {n : Nat}
    {span : Span}
    {op : Token}
    (hFront : AddsTo front n span)
    (hOp : op.kind = .plus)
    (hChain : IsChain tokens)
    (hNumeric : Numeric tokens)
    (hBounds : Numeral.InBounds (n + worth tokens : Nat)) :
    ∃ joined,
      AddsTo (front ++ op :: tokens)
        (n + worth tokens : Nat) joined := by
  induction hChain generalizing front n span op with
  | @number token hKind =>
      rw [worth_singleton] at hBounds ⊢
      have hLast := hBounds.of_le (Nat.le_add_left _ _)
      have hRead :=
        (read?_text_eq_some_iff hKind
          (hNumeric token (by simp))).mpr ⟨rfl, hLast⟩
      exact ⟨_, hFront.plus hOp hKind hRead hBounds⟩
  | @plus lhs plus tokens hLeft hPlus _ ih =>
      simp only [Numeric, List.forall_mem_cons] at hNumeric
      rcases hNumeric with ⟨hDigits, _, hRest⟩
      rw [worth_addition lhs tokens hPlus, ← Nat.add_assoc]
        at hBounds ⊢
      -- Neither this sum nor this number exceeds the total.
      have hSum := hBounds.of_le (Nat.le_add_right _ _)
      have hNumber := hSum.of_le (Nat.le_add_left _ _)
      have hRead :=
        (read?_text_eq_some_iff hLeft hDigits).mpr
          ⟨rfl, hNumber⟩
      have hNext := hFront.plus hOp hLeft hRead hSum
      have hLater := ih hNext hPlus hRest hBounds
      rw [List.append_assoc] at hLater
      exact hLater

/- A chain adds up if its total is in bounds. -/
theorem IsChain.exists_addsTo
    {tokens : List Token}
    (hChain : IsChain tokens)
    (hNumeric : Numeric tokens)
    (hBounds : Numeral.InBounds (worth tokens)) :
    ∃ span, AddsTo tokens (worth tokens) span := by
  cases hChain with
  | @number token hKind =>
      rw [worth_singleton] at hBounds ⊢
      have hRead :=
        (read?_text_eq_some_iff hKind
          (hNumeric token (by simp))).mpr ⟨rfl, hBounds⟩
      exact ⟨token.span, .number hKind hRead⟩
  | @plus lhs op tokens hLeft hOp hTokens =>
      simp only [Numeric, List.forall_mem_cons] at hNumeric
      rcases hNumeric with ⟨hDigits, _, hRest⟩
      rw [worth_addition lhs tokens hOp] at hBounds ⊢
      have hNumber := hBounds.of_le (Nat.le_add_right _ _)
      have hRead :=
        (read?_text_eq_some_iff hLeft hDigits).mpr
          ⟨rfl, hNumber⟩
      have hFirst := AddsTo.number hLeft hRead
      exact hFirst.exists_append hOp hTokens hRest hBounds

/- What runs of digits add up to is their total. -/
theorem AddsTo.eq_worth
    {tokens : List Token}
    {n : Int}
    {span : Span}
    (hAdds : AddsTo tokens n span)
    (hNumeric : Numeric tokens) :
    n = worth tokens ∧ Numeral.InBounds (worth tokens) := by
  induction hAdds with
  | @number token n hKind hRead =>
      rw [worth_singleton]
      exact
        (read?_text_eq_some_iff hKind
          (hNumeric token (by simp))).mp hRead
  | @plus tokens n m span op rhs _ hOp hKind hRead hBounds
      ih =>
      simp only [Numeric, List.forall_mem_append,
        List.forall_mem_cons] at hNumeric
      rcases hNumeric with ⟨hFront, _, hDigits, _⟩
      have hLast :=
        ((read?_text_eq_some_iff hKind hDigits).mp hRead).1
      have hWorth :
          (worth (tokens ++ [op, rhs]) : Int) = n + m := by
        rw [(ih hFront).1, hLast]
        simp [amount_of_plus hOp]
      rw [hWorth]
      exact ⟨rfl, hBounds⟩

/-
  A number that is the total of some tokens, in bounds and
  written in canonical form.
-/
structure IsTotal (tokens : List Token) (sum : Token) :
    Prop where
  kind : sum.kind = .number
  canonical :
    Numeral.IsCanonical sum.text.toList (worth tokens)
  inBounds : Numeral.InBounds (worth tokens)

/- What stands for a block is its only token or its total. -/
theorem Yields.isTotal
    {block : List Token}
    {token : Token}
    (hYields : Yields block token)
    (hNumeric : Numeric block) :
    block = [token] ∨ IsTotal block token := by
  cases hYields with
  | single =>
      exact .inl rfl
  | total _ hAdds =>
      right
      rcases hAdds.eq_worth hNumeric with ⟨rfl, hBounds⟩
      refine ⟨rfl, ?_, hBounds⟩
      have hText :
          (Numeral.write (worth block)).toList =
            Nat.toDigits 10 (worth block) :=
        String.toList_ofList
      rw [hText]
      exact Numeral.isCanonical_toDigits _

end Token

end IntDecl

------------------------------------------------------------
-- Pieces
------------------------------------------------------------

namespace IntDecl

namespace Token

/-
  A chain between other tokens is as long as it can be: no
  addition leads to it and none goes on behind it.
-/
structure LongestChain
    (before chain after : List Token) :
    Prop where
  isChain : IsChain chain
  begins : ¬ [.number, .plus] <:+ kinds before
  ends : ¬ [.plus, .number] <+: kinds after

/- The tokens right in front of a chain decide for it. -/
theorem LongestChain.of_append
    {first second chain after : List Token}
    (hLongest : LongestChain (first ++ second) chain after) :
    LongestChain second chain after where
  isChain := hLongest.isChain
  begins hSuffix := by
    apply hLongest.begins
    rw [kinds, List.map_append]
    exact hSuffix.trans (List.suffix_append _ _)
  ends := hLongest.ends

/- No longest chain begins inside another chain. -/
theorem LongestChain.eq_nil_or_exists_append
    {before chain after piece rest : List Token}
    (hLongest : LongestChain before chain after)
    (hPiece : IsChain piece)
    (hTokens : before ++ (chain ++ after) = piece ++ rest) :
    before = [] ∨
      ∃ behind, before = piece ++ behind ∧
        behind ++ (chain ++ after) = rest := by
  rw [List.append_eq_append_iff] at hTokens
  rcases hTokens with
    ⟨inside, hInside, hRest⟩ | ⟨behind, hBehind, hRest⟩
  case inr =>
    exact .inr ⟨behind, hBehind, hRest.symm⟩
  case inl =>
    match inside with
    | [] =>
        rw [List.append_nil] at hInside
        refine .inr ⟨[], ?_, hRest⟩
        rw [List.append_nil, hInside]
    | token :: inside =>
        left
        rcases hLongest.isChain.exists_cons with
          ⟨first, others, hFirst, hKind⟩
        rw [hFirst, List.cons_append, List.cons_append,
          List.cons.injEq] at hRest
        rw [hInside, ← hRest.1] at hPiece
        rcases hPiece.suffix_of_number hKind with
          hNil | hSuffix
        · exact hNil
        · exact absurd hSuffix hLongest.begins

/-
  Pieces are chains behind which no addition goes on and
  single tokens that are no numbers.
-/
inductive Pieces : List (List Token) → Prop where
| nil :
    Pieces []
| chain
    {piece : List Token}
    {pieces : List (List Token)}
    (hChain : IsChain piece)
    (hEnds : ¬ [.plus, .number] <+: kinds pieces.flatten)
    (hPieces : Pieces pieces) :
    Pieces (piece :: pieces)
| single
    {token : Token}
    {pieces : List (List Token)}
    (hKind : token.kind ≠ .number)
    (hPieces : Pieces pieces) :
    Pieces ([token] :: pieces)

/-
  A number in front of pieces is a piece, or the piece that
  comes after the first takes it in with the plus sign
  between them.
-/
theorem Pieces.exists_cons_number
    {pieces : List (List Token)}
    {token : Token}
    (hPieces : Pieces pieces)
    (hKind : token.kind = .number) :
    ∃ others, Pieces others ∧
      others.flatten = token :: pieces.flatten := by
  by_cases hEnds : [.plus, .number] <+: kinds pieces.flatten
  case neg =>
    exact ⟨_, .chain (.number hKind) hEnds hPieces, rfl⟩
  case pos =>
    cases hPieces with
    | nil =>
        cases List.prefix_nil.mp hEnds
    | chain hChain _ _ =>
        rcases hChain.exists_cons with
          ⟨first, rest, rfl, hFirst⟩
        have hPlus : .plus = first.kind :=
          (List.cons_prefix_cons.mp hEnds).1
        rw [hFirst] at hPlus
        cases hPlus
    | @single op pieces hOther hPieces =>
        rcases List.cons_prefix_cons.mp hEnds with
          ⟨hPlus, hNumber⟩
        -- The plus sign is a piece, and a chain begins behind.
        change [.number] <+: kinds pieces.flatten at hNumber
        cases hPieces with
        | nil =>
            cases List.prefix_nil.mp hNumber
        | @chain chain pieces hChain hStops hPieces =>
            have hLonger : IsChain (token :: op :: chain) :=
              .plus hKind hPlus.symm hChain
            exact
              ⟨_, .chain hLonger hStops hPieces, rfl⟩
        | single hKind _ =>
            have hSame :=
              (List.cons_prefix_cons.mp hNumber).1
            exact absurd hSame.symm hKind

/- All tokens fall into pieces. -/
theorem exists_pieces
    (tokens : List Token) :
    ∃ pieces, Pieces pieces ∧ pieces.flatten = tokens := by
  induction tokens with
  | nil =>
      exact ⟨[], .nil, rfl⟩
  | cons token tokens ih =>
      rcases ih with ⟨pieces, hPieces, rfl⟩
      by_cases hKind : token.kind = .number
      · exact hPieces.exists_cons_number hKind
      · exact ⟨_, .single hKind hPieces, rfl⟩

/- Every longest chain is a piece at its place. -/
theorem Pieces.exists_of_longestChain
    {pieces : List (List Token)}
    {before chain after : List Token}
    (hPieces : Pieces pieces)
    (hLongest : LongestChain before chain after)
    (hTokens : before ++ (chain ++ after) = pieces.flatten) :
    ∃ front back, pieces = front ++ chain :: back ∧
      front.flatten = before ∧ back.flatten = after := by
  induction hPieces generalizing before with
  | nil =>
      rcases hLongest.isChain.exists_cons with
        ⟨first, rest, rfl, _⟩
      cases (List.append_eq_nil_iff.mp hTokens).2
  | @chain piece pieces hPiece hEnds hPieces ih =>
      rw [List.flatten_cons] at hTokens
      rcases hLongest.eq_nil_or_exists_append hPiece hTokens
        with rfl | ⟨behind, rfl, hRest⟩
      · rcases hLongest.isChain.eq_of_append hPiece
          hLongest.ends hEnds hTokens with ⟨rfl, rfl⟩
        exact ⟨[], pieces, rfl, rfl, rfl⟩
      · rcases ih hLongest.of_append hRest with
          ⟨front, back, rfl, rfl, hBack⟩
        exact ⟨piece :: front, back, rfl, rfl, hBack⟩
  | @single token pieces hKind hPieces ih =>
      match before with
      | [] =>
          rcases hLongest.isChain.exists_cons with
            ⟨first, rest, rfl, hFirst⟩
          rcases List.cons_eq_cons.mp hTokens with ⟨rfl, _⟩
          exact absurd hFirst hKind
      | _ :: before =>
          rcases List.cons_eq_cons.mp hTokens with
            ⟨rfl, hRest⟩
          have hWhole :
              LongestChain ([_] ++ before) chain after :=
            hLongest
          rcases ih hWhole.of_append hRest with
            ⟨front, back, rfl, rfl, hBack⟩
          exact ⟨[_] :: front, back, rfl, rfl, hBack⟩

end Token

end IntDecl

------------------------------------------------------------
-- Folding Pieces
------------------------------------------------------------

namespace IntDecl

namespace Token

/-
  What folding leaves of a piece: one number for a chain of
  two numbers or more whose total is in bounds, a chain with
  the same total for one whose total is not, and the piece
  itself where there is nothing to add. The numbers that
  folding has made are in bounds, each the total of the block
  that it stands for.
-/
structure FoldsTo (piece result : List Token) : Prop where
  other : ¬ IsChain piece → result = piece
  lone : piece.length = 1 → result = piece
  whole :
    IsChain piece →
      1 < piece.length →
        Numeral.InBounds (worth piece) →
          ∃ sum, result = [sum] ∧ IsTotal piece sum
  parts :
    IsChain piece →
      ¬ Numeral.InBounds (worth piece) →
        IsChain result ∧ worth result = worth piece ∧
          ∃ blocks, blocks.flatten = piece ∧
            List.Forall₂
              (fun block token =>
                block = [token] ∨ IsTotal block token)
              blocks result

/- A token by itself is left as it is. -/
theorem foldsTo_singleton
    (token : Token) :
    FoldsTo [token] (contract [token]) := by
  rw [contract_singleton]
  constructor
  case other =>
    exact fun _ => rfl
  case lone =>
    exact fun _ => rfl
  case whole =>
    intro _ hLong _
    exact absurd hLong (Nat.lt_irrefl 1)
  case parts =>
    intro hChain _
    exact
      ⟨hChain, rfl, [[token]], rfl, .cons (.inl rfl) .nil⟩

/- A chain whose total is in bounds is left as its total. -/
theorem IsChain.exists_contract_eq
    {tokens : List Token}
    (hChain : IsChain tokens)
    (hNumeric : Numeric tokens)
    (hLong : 1 < tokens.length)
    (hBounds : Numeral.InBounds (worth tokens)) :
    ∃ sum, contract tokens = [sum] ∧ IsTotal tokens sum := by
  rcases hChain.exists_addsTo hNumeric hBounds with
    ⟨span, hAdds⟩
  rcases hAdds.exists_yields with
    ⟨sum, hYields, _, _, _, hFolds⟩
  have hAlone := hFolds []
  rw [List.append_nil, contract_singleton] at hAlone
  rcases hYields.isTotal hNumeric with rfl | hSum
  · exact absurd hLong (Nat.lt_irrefl 1)
  · exact ⟨sum, hAlone, hSum⟩

/- Folding leaves each number or puts in a total for some. -/
theorem exists_blocks_isTotal
    {tokens : List Token}
    (hNumeric : Numeric tokens) :
    ∃ blocks, blocks.flatten = tokens ∧
      List.Forall₂
        (fun block token =>
          block = [token] ∨ IsTotal block token)
        blocks (contract tokens) := by
  rcases exists_partition tokens with
    ⟨blocks, hPartition, rfl⟩
  have hBoth := hPartition.forall_yields_contract hNumeric
  refine ⟨blocks, rfl, hBoth.imp ?_⟩
  intro block token hToken
  exact hToken.2.isTotal hToken.1

/- Folding a chain of runs of digits. -/
theorem IsChain.foldsTo_contract
    {tokens : List Token}
    (hChain : IsChain tokens)
    (hNumeric : Numeric tokens) :
    FoldsTo tokens (contract tokens) where
  other hOther := absurd hChain hOther
  lone hLength := by
    rcases List.length_eq_one_iff.mp hLength with
      ⟨token, rfl⟩
    exact (foldsTo_singleton token).lone rfl
  whole _ hLong hBounds :=
    hChain.exists_contract_eq hNumeric hLong hBounds
  parts _ _ := by
    rcases hChain.contract_keeps hNumeric with
      ⟨hFolded, hWorth⟩
    exact ⟨hFolded, hWorth, exists_blocks_isTotal hNumeric⟩

/- A chain is apart from tokens that add nothing to it. -/
theorem IsChain.apart
    {tokens rest : List Token}
    (hChain : IsChain tokens)
    (hEnds : ¬ [.plus, .number] <+: kinds rest) :
    Apart tokens rest where
  behindNumber _ := hEnds
  behindPlus hPlus := by
    rcases hPlus with ⟨front, hKinds⟩
    have hLast := hChain.getLast?_kinds
    rw [← hKinds, List.append_cons, List.getLast?_concat]
      at hLast
    cases hLast

/- A token that is no number is apart from those behind it. -/
theorem apart_singleton
    {token : Token}
    (hKind : token.kind ≠ .number)
    (rest : List Token) :
    Apart [token] rest where
  behindNumber hNumber := by
    have hSame := hNumber.eq_of_length rfl
    exact absurd (List.singleton_inj.mp hSame).symm hKind
  behindPlus hPlus := by
    have hLength : 2 ≤ 1 := hPlus.length_le
    omega

/- Pieces are folded one by one. -/
theorem Pieces.contract_flatten
    {pieces : List (List Token)}
    (hPieces : Pieces pieces) :
    contract pieces.flatten =
      (pieces.map contract).flatten := by
  induction hPieces with
  | nil =>
      exact contract_nil
  | chain hChain hEnds _ ih =>
      rw [List.flatten_cons,
        contract_append (hChain.apart hEnds), ih]
      rfl
  | single hKind _ ih =>
      rw [List.flatten_cons,
        contract_append (apart_singleton hKind _), ih]
      rfl

/- What folding leaves of pieces with runs of digits. -/
theorem Pieces.foldsTo_contract
    {pieces : List (List Token)}
    (hPieces : Pieces pieces)
    (hNumeric : Numeric pieces.flatten) :
    List.Forall₂ FoldsTo pieces (pieces.map contract) := by
  induction hPieces with
  | nil =>
      exact .nil
  | chain hChain _ _ ih =>
      rw [List.flatten_cons, Numeric,
        List.forall_mem_append] at hNumeric
      exact
        .cons (hChain.foldsTo_contract hNumeric.1)
          (ih hNumeric.2)
  | single _ _ ih =>
      rw [List.flatten_cons, Numeric,
        List.forall_mem_append] at hNumeric
      exact .cons (foldsTo_singleton _) (ih hNumeric.2)

end Token

end IntDecl

------------------------------------------------------------
-- Pieces Of A Sequence
------------------------------------------------------------

namespace IntDecl

namespace TokenSequence

/- The end mark of a sequence is no number. -/
theorem numeric_tokens
    {ts : TokenSequence}
    (hNumeric : Token.Numeric ts.body) :
    Token.Numeric ts.tokens := by
  rw [tokens, Token.Numeric, List.forall_mem_append]
  refine ⟨hNumeric, ?_⟩
  intro token hToken hKind
  rw [List.mem_singleton.mp hToken] at hKind
  cases hKind

/-
  If all numbers of a sequence are runs of digits, then its
  tokens fall into pieces that are folded one by one, and
  every longest chain of numbers with plus signs between them
  is one of the pieces. A chain of two numbers or more becomes
  its total, if that is in bounds, and else a chain with the
  same total; what is no chain stays as it is.
-/
theorem exists_pieces_foldsTo
    {ts : TokenSequence}
    (hNumeric : Token.Numeric ts.body) :
    ∃ pieces results,
      pieces.flatten = ts.tokens ∧
      results.flatten = ts.fold.tokens ∧
      (∀ before chain after,
        Token.LongestChain before chain after →
          before ++ (chain ++ after) = ts.tokens →
            ∃ front back, pieces = front ++ chain :: back ∧
              front.flatten = before ∧
              back.flatten = after) ∧
      List.Forall₂ Token.FoldsTo pieces results := by
  have hTokens := numeric_tokens hNumeric
  rcases Token.exists_pieces ts.tokens with
    ⟨pieces, hPieces, hFlat⟩
  refine
    ⟨pieces, pieces.map Token.contract, hFlat, ?_, ?_, ?_⟩
  · rw [tokens_fold, ← hPieces.contract_flatten, hFlat]
  · intro before chain after hLongest hSame
    exact
      hPieces.exists_of_longestChain hLongest
        (hSame.trans hFlat.symm)
  · rw [← hFlat] at hTokens
    exact hPieces.foldsTo_contract hTokens

/- A chain that is out of bounds, and another with zeros. -/
theorem exists_pieces_foldsTo_of_overflow :
    let ts :=
      ofSource "1 + 099999999999999999999 + 2 + 3 (00 + 07) +"
    Token.Numeric ts.body ∧
      ts.fold.lexemes.map (fun l => l.text) =
        ["1", "+", "099999999999999999999", "+", "5", "(",
          "7", ")", "+", ""] ∧
      ∃ pieces results,
        pieces.flatten = ts.tokens ∧
        results.flatten = ts.fold.tokens ∧
        (∀ before chain after,
          Token.LongestChain before chain after →
            before ++ (chain ++ after) = ts.tokens →
              ∃ front back, pieces = front ++ chain :: back ∧
                front.flatten = before ∧
                back.flatten = after) ∧
        List.Forall₂ Token.FoldsTo pieces results := by
  intro ts
  have hNumeric : Token.Numeric ts.body :=
    numeric_ofSource _
  exact
    ⟨hNumeric, by decide +kernel,
      exists_pieces_foldsTo hNumeric⟩

end TokenSequence

end IntDecl
