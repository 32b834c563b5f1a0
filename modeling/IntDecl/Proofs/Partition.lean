import IntDecl.Proofs.Contraction
import Mathlib.Data.List.Forall2

/-
  This file says what folding leaves without saying how it is
  done.

  There is one way to divide tokens into blocks so that a
  block is a single token or a chain of numbers that add up,
  and no block can take in the addition right behind it.
  Folding leaves one token for each block: the token itself,
  or the total of the chain.

  Key definitions include:
    * `Token.AddsTo`
    * `Token.IsBlock`
    * `Token.StopsBefore`
    * `Token.Partition`
    * `Token.Yields`

  Key theorems include:
    * `Token.IsBlock.exists_contract_append`
    * `Token.Partition.yields_contract`
    * `Token.Partition.forall_yields_contract`
    * `Token.Partition.map_contract`
    * `Token.Partition.unique`
    * `Token.exists_partition`
    * `TokenSequence.exists_partition_yields_fold`
-/

------------------------------------------------------------
-- Blocks That Add Up
------------------------------------------------------------

namespace IntDecl

namespace Token

/-
  A number, or a chain of numbers with plus signs between
  them, adds up from left to right: all numbers can be read,
  and all sums on the way are in bounds. The total is kept,
  and the span that the spans of the numbers are joined to.
-/
inductive AddsTo : List Token → Int → Span → Prop where
| number
    {token : Token}
    {n : Int}
    (hKind : token.kind = .number)
    (hRead : Numeral.read? token.text = some n) :
    AddsTo [token] n token.span
| plus
    {tokens : List Token}
    {total n : Int}
    {span : Span}
    {op rhs : Token}
    (hTokens : AddsTo tokens total span)
    (hOp : op.kind = .plus)
    (hKind : rhs.kind = .number)
    (hRead : Numeral.read? rhs.text = some n)
    (hBounds : Numeral.InBounds (total + n)) :
    AddsTo (tokens ++ [op, rhs]) (total + n)
      (span.join rhs.span)

/-
  A block is a single token or a chain of two numbers or more
  that adds up.
-/
def IsBlock (block : List Token) : Prop :=
  (∃ token, block = [token]) ∨
    1 < block.length ∧ ∃ total span, AddsTo block total span

/-
  A block does not take in what follows it: if it adds up and
  an addition follows whose number can be read, then the sum
  is out of bounds.
-/
def StopsBefore (block rest : List Token) : Prop :=
  ∀ total span op rhs more n,
    AddsTo block total span →
      rest = op :: rhs :: more →
        op.kind = .plus → rhs.kind = .number →
          Numeral.read? rhs.text = some n →
            ¬ Numeral.InBounds (total + n)

/- Blocks none of which takes in what follows it. -/
inductive Partition : List (List Token) → Prop where
| nil :
    Partition []
| cons
    {block : List Token}
    {blocks : List (List Token)}
    (hBlock : IsBlock block)
    (hStops : StopsBefore block blocks.flatten)
    (hBlocks : Partition blocks) :
    Partition (block :: blocks)

/-
  What stands for a block: a single token for itself, and the
  total, written out, for a chain.
-/
inductive Yields : List Token → Token → Prop where
| single
    {token : Token} :
    Yields [token] token
| total
    {block : List Token}
    {n : Int}
    {span : Span}
    (hLong : 1 < block.length)
    (hAdds : AddsTo block n span) :
    Yields block
      { kind := .number
        text := Numeral.write n
        span := span }

/- A chain that adds up has an odd number of tokens. -/
theorem AddsTo.length_mod_two
    {block : List Token}
    {total : Int}
    {span : Span}
    (hAdds : AddsTo block total span) :
    block.length % 2 = 1 := by
  induction hAdds with
  | number _ _ =>
      rfl
  | plus _ _ _ _ _ ih =>
      simp only [List.length_append, List.length_cons,
        List.length_nil]
      omega

/- A chain with one more addition that adds up is a block. -/
theorem AddsTo.isBlock_plus
    {block : List Token}
    {total : Int}
    {span : Span}
    (hAdds : AddsTo block total span)
    {op rhs : Token}
    {n : Int}
    (hOp : op.kind = .plus)
    (hKind : rhs.kind = .number)
    (hRead : Numeral.read? rhs.text = some n)
    (hBounds : Numeral.InBounds (total + n)) :
    IsBlock (block ++ [op, rhs]) := by
  refine .inr ⟨?_, _, _, hAdds.plus hOp hKind hRead hBounds⟩
  simp only [List.length_append, List.length_cons]
  omega

/- A block has an odd number of tokens. -/
theorem IsBlock.length_mod_two
    {block : List Token}
    (hBlock : IsBlock block) :
    block.length % 2 = 1 := by
  rcases hBlock with ⟨token, rfl⟩ | ⟨_, total, span, hAdds⟩
  · rfl
  · exact hAdds.length_mod_two

/- No block is empty. -/
theorem IsBlock.ne_nil
    {block : List Token}
    (hBlock : IsBlock block) :
    block ≠ [] := by
  intro hNil
  have hOdd := hBlock.length_mod_two
  rw [hNil] at hOdd
  cases hOdd

end Token

end IntDecl

------------------------------------------------------------
-- Folding Blocks
------------------------------------------------------------

namespace IntDecl

namespace Token

/-
  Folding a chain that adds up, with any tokens behind it, is
  folding its total with the same tokens behind it.
-/
theorem AddsTo.exists_yields
    {block : List Token}
    {total : Int}
    {span : Span}
    (hAdds : AddsTo block total span) :
    ∃ token, Yields block token ∧ token.kind = .number ∧
      Numeral.read? token.text = some total ∧
      token.span = span ∧
      ∀ rest, contract (block ++ rest) =
        contract (token :: rest) := by
  induction hAdds with
  | @number token n hKind hRead =>
      exact
        ⟨token, .single, hKind, hRead, rfl, fun _ => rfl⟩
  | @plus tokens total n span op rhs hTokens hOp hKind hRead
      hBounds ih =>
      rcases ih with
        ⟨front, _, hFront, hFrontRead, hFrontSpan, hFolds⟩
      have hSum :
          window? front op rhs =
            some
              { kind := .number
                text := Numeral.write (total + n)
                span := span.join rhs.span } := by
        rw [window?_eq_some_iff, sum?_eq_some_iff]
        exact
          ⟨⟨hFront, hOp, hKind⟩, total, n, hFrontRead, hRead,
            hBounds, by rw [hFrontSpan]⟩
      refine
        ⟨_, .total ?_ (hTokens.plus hOp hKind hRead hBounds),
          rfl, Numeral.read?_write hBounds, rfl, ?_⟩
      · have hOdd := hTokens.length_mod_two
        simp only [List.length_append, List.length_cons]
        omega
      · intro rest
        rw [List.append_assoc, hFolds]
        simp only [List.cons_append, List.nil_append]
        rw [contract, hSum]

/-
  Folding a block, with any tokens behind it, is folding the
  token that stands for it; and that token is no number that
  can be read unless the block adds up to it.
-/
theorem IsBlock.exists_yields
    {block : List Token}
    (hBlock : IsBlock block) :
    ∃ token, Yields block token ∧
      (∀ n, token.kind = .number →
        Numeral.read? token.text = some n →
          AddsTo block n token.span) ∧
      ∀ rest, contract (block ++ rest) =
        contract (token :: rest) := by
  rcases hBlock with ⟨token, rfl⟩ | ⟨_, total, span, hAdds⟩
  · refine ⟨token, .single, ?_, fun _ => rfl⟩
    intro n hKind hRead
    exact .number hKind hRead
  · rcases hAdds.exists_yields with
      ⟨token, hYields, _, hRead, hSpan, hFolds⟩
    refine ⟨token, hYields, ?_, hFolds⟩
    intro n _ hOther
    rw [hRead] at hOther
    cases hOther
    rw [hSpan]
    exact hAdds

/-
  Folding a block that takes in nothing more leaves what
  stands for it, and behind it what folding leaves of the
  rest.
-/
theorem IsBlock.exists_contract_append
    {block rest : List Token}
    (hBlock : IsBlock block)
    (hStops : StopsBefore block rest) :
    ∃ token, Yields block token ∧
      contract block = [token] ∧
      contract (block ++ rest) = token :: contract rest := by
  rcases hBlock.exists_yields with
    ⟨token, hYields, hAdds, hFolds⟩
  refine ⟨token, hYields, ?_, ?_⟩
  · have hAlone := hFolds []
    rw [List.append_nil] at hAlone
    rw [hAlone, contract_singleton]
  · rw [hFolds, contract_cons_of_window?]
    intro op rhs more hRest
    rw [Option.eq_none_iff_forall_ne_some]
    intro sum hWindow
    rw [window?_eq_some_iff, sum?_eq_some_iff] at hWindow
    rcases hWindow with
      ⟨⟨hNumber, hOp, hKind⟩, m, n, hLeft, hRight, hBounds, _⟩
    exact hStops m token.span op rhs more n
      (hAdds m hNumber hLeft) hRest hOp hKind hRight hBounds

/- Folding leaves for each block what stands for it. -/
theorem Partition.yields_contract
    {blocks : List (List Token)}
    (hPartition : Partition blocks) :
    List.Forall₂ Yields blocks (contract blocks.flatten) := by
  induction hPartition with
  | nil =>
      rw [List.flatten_nil, contract_nil]
      exact .nil
  | cons hBlock hStops _ ih =>
      rcases hBlock.exists_contract_append hStops with
        ⟨token, hYields, _, hFolds⟩
      rw [List.flatten_cons, hFolds]
      exact .cons hYields ih

/-
  What holds of all tokens holds of those in the block that a
  token stands for.
-/
theorem Partition.forall_yields_contract
    {property : Token → Prop}
    {blocks : List (List Token)}
    (hPartition : Partition blocks)
    (hTokens : ∀ token ∈ blocks.flatten, property token) :
    List.Forall₂
      (fun block token =>
        (∀ t ∈ block, property t) ∧ Yields block token)
      blocks (contract blocks.flatten) := by
  have hEach :
      ∀ block ∈ blocks, ∀ t ∈ block, property t := by
    intro block hBlock t hMem
    exact hTokens t (List.mem_flatten_of_mem hBlock hMem)
  exact
    (List.forall₂_and_left _ _).mpr
      ⟨hEach, hPartition.yields_contract⟩

/- Blocks are folded as they are folded by themselves. -/
theorem Partition.map_contract
    {blocks : List (List Token)}
    (hPartition : Partition blocks) :
    blocks.map contract =
      (contract blocks.flatten).map fun token => [token] := by
  induction hPartition with
  | nil =>
      rw [List.flatten_nil, contract_nil]
      rfl
  | cons hBlock hStops _ ih =>
      rcases hBlock.exists_contract_append hStops with
        ⟨token, _, hAlone, hFolds⟩
      rw [List.flatten_cons, hFolds, List.map_cons, hAlone,
        List.map_cons, ih]

end Token

end IntDecl

------------------------------------------------------------
-- Partitions
------------------------------------------------------------

namespace IntDecl

namespace Token

/-
  A chain that adds up is no longer than a block at the same
  place that takes in nothing more.
-/
theorem AddsTo.length_le
    {chain block after rest : List Token}
    {total : Int}
    {span : Span}
    (hAdds : AddsTo chain total span)
    (hBlock : IsBlock block)
    (hStops : StopsBefore block rest)
    (hSame : chain ++ after = block ++ rest) :
    chain.length ≤ block.length := by
  have hOdd := hBlock.length_mod_two
  induction hAdds generalizing after with
  | number _ _ =>
      rw [List.length_singleton]
      omega
  | @plus tokens total n span op rhs hTokens hOp hKind hRead
      hBounds ih =>
      rw [List.append_assoc] at hSame
      have hLe := ih hSame
      have hFront := hTokens.length_mod_two
      simp only [List.length_append, List.length_cons,
        List.length_nil]
      by_cases hLonger : tokens.length + 2 ≤ block.length
      · exact hLonger
      · -- The block is the chain without its last addition.
        have hLength : tokens.length = block.length := by
          omega
        rcases List.append_inj hSame hLength with
          ⟨rfl, hRest⟩
        exact absurd hBounds
          (hStops total span op rhs after n hTokens
            hRest.symm hOp hKind hRead)

/-
  Of two blocks at the same place that take in nothing more,
  none is longer than the other.
-/
theorem IsBlock.length_le
    {first second rest more : List Token}
    (hFirst : IsBlock first)
    (hSecond : IsBlock second)
    (hStops : StopsBefore second more)
    (hSame : first ++ rest = second ++ more) :
    first.length ≤ second.length := by
  have hOdd := hSecond.length_mod_two
  rcases hFirst with ⟨token, rfl⟩ | ⟨_, total, span, hAdds⟩
  · rw [List.length_singleton]
    omega
  · exact hAdds.length_le hSecond hStops hSame

/- Tokens are divided in one way only. -/
theorem Partition.unique
    {blocks others : List (List Token)}
    (hBlocks : Partition blocks)
    (hOthers : Partition others)
    (hSame : blocks.flatten = others.flatten) :
    blocks = others := by
  induction hBlocks generalizing others with
  | nil =>
      cases hOthers with
      | nil =>
          rfl
      | cons hBlock _ _ =>
          have hNil := List.append_eq_nil_iff.mp hSame.symm
          exact absurd hNil.1 hBlock.ne_nil
  | cons hBlock hStops _ ih =>
      cases hOthers with
      | nil =>
          have hNil := List.append_eq_nil_iff.mp hSame
          exact absurd hNil.1 hBlock.ne_nil
      | cons hOther hOtherStops hLater =>
          rw [List.flatten_cons, List.flatten_cons] at hSame
          have hLe :=
            hBlock.length_le hOther hOtherStops hSame
          have hGe :=
            hOther.length_le hBlock hStops hSame.symm
          rcases List.append_inj hSame
            (Nat.le_antisymm hLe hGe) with ⟨rfl, hRest⟩
          rw [ih hLater hRest]

/-
  A block takes in additions behind it until it cannot take in
  one more.
-/
theorem IsBlock.exists_stopsBefore
    {block : List Token}
    (hBlock : IsBlock block)
    (rest : List Token) :
    ∃ longer after, longer ++ after = block ++ rest ∧
      IsBlock longer ∧ StopsBefore longer after := by
  by_cases hStops : StopsBefore block rest
  · exact ⟨block, rest, rfl, hBlock, hStops⟩
  · unfold StopsBefore at hStops
    push Not at hStops
    rcases hStops with
      ⟨total, span, op, rhs, more, n, hAdds, hRest, hOp,
        hKind, hRead, hBounds⟩
    subst hRest
    have hLonger :=
      hAdds.isBlock_plus hOp hKind hRead hBounds
    rcases hLonger.exists_stopsBefore more with
      ⟨longer, after, hSame, hFound⟩
    rw [List.append_assoc] at hSame
    exact ⟨longer, after, hSame, hFound⟩
termination_by rest.length

/- Tokens can be divided. -/
theorem exists_partition
    (tokens : List Token) :
    ∃ blocks, Partition blocks ∧ blocks.flatten = tokens := by
  induction hLength : tokens.length using Nat.strongRecOn
    generalizing tokens with
  | ind length ih =>
      cases tokens with
      | nil =>
          exact ⟨[], .nil, rfl⟩
      | cons token tokens =>
          have hToken : IsBlock [token] := .inl ⟨token, rfl⟩
          rcases hToken.exists_stopsBefore tokens with
            ⟨block, rest, hSame, hBlock, hStops⟩
          have hOdd := hBlock.length_mod_two
          have hAll := congrArg List.length hSame
          rw [List.singleton_append, hLength,
            List.length_append] at hAll
          rcases ih rest.length (by omega) rest rfl with
            ⟨blocks, hBlocks, hFlat⟩
          subst hFlat
          exact
            ⟨block :: blocks, .cons hBlock hStops hBlocks,
              hSame⟩

end Token

end IntDecl

------------------------------------------------------------
-- Partitions Of A Sequence
------------------------------------------------------------

namespace IntDecl

namespace TokenSequence

/- Folding leaves the end mark behind what it folds. -/
theorem tokens_fold
    (ts : TokenSequence) :
    ts.fold.tokens = Token.contract ts.tokens := by
  rw [tokens, tokens, body_fold,
    Token.contract_append_barrier
      (Token.isBarrier_endOfInput ts.marker),
    Token.contract_nil]
  rfl

/-
  The tokens of a sequence are divided in exactly one way into
  blocks that take in nothing more, and folding leaves for
  each block, in order, the token that stands for it.
-/
theorem exists_partition_yields_fold
    (ts : TokenSequence) :
    ∃ blocks,
      (Token.Partition blocks ∧
        blocks.flatten = ts.tokens) ∧
      (∀ others, Token.Partition others →
        others.flatten = ts.tokens → others = blocks) ∧
      List.Forall₂ Token.Yields blocks ts.fold.tokens := by
  rcases Token.exists_partition ts.tokens with
    ⟨blocks, hPartition, hFlat⟩
  refine ⟨blocks, ⟨hPartition, hFlat⟩, ?_, ?_⟩
  · intro others hOthers hSame
    exact hOthers.unique hPartition (hSame.trans hFlat.symm)
  · rw [tokens_fold, ← hFlat]
    exact hPartition.yields_contract

end TokenSequence

end IntDecl
