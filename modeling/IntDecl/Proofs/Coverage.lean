import IntDecl.Proofs.Partition
import IntDecl.Proofs.Placement
import IntDecl.Span.Word
import Mathlib.Order.Bounds.Basic

/-
  This file orders spans by coverage.

  Any two spans have a least span that covers both, their
  join. So it makes no difference in which order spans are
  joined, and spans that fit into words are joined in words
  without a fault in every order. The spans of the numbers in
  a chain that is folded are joined from left to right, but
  any other order gives the span of the total as well.

  Key definitions include:
    * `Span.Joining`
    * `Span.JoinTo`
    * `Token.numberSpans`

  Key theorems include:
    * `Span.Joining.isLUB_result`
    * `Span.Joining.inWords?_eq`
    * `Span.joinTo_of_isLUB`
    * `Token.AddsTo.isLUB_numberSpans`
    * `Token.AddsTo.isLUB_spans`
    * `Span.join_least`
-/

------------------------------------------------------------
-- Coverage As An Order
------------------------------------------------------------

namespace IntDecl

namespace Span

/- Every span covers itself. -/
theorem Covers.refl
    (s : Span) :
    s.Covers s :=
  ⟨Nat.le_refl _, Nat.le_refl _⟩

/- A span covers what a span that it covers does. -/
theorem Covers.trans
    {s t u : Span}
    (hFirst : u.Covers t)
    (hSecond : t.Covers s) :
    u.Covers s :=
  ⟨hFirst.1.trans hSecond.1, hSecond.2.trans hFirst.2⟩

/- Spans that cover each other are the same. -/
theorem Covers.antisymm
    {s t : Span}
    (hFirst : t.Covers s)
    (hSecond : s.Covers t) :
    s = t := by
  rcases s with ⟨offset, length⟩
  rcases t with ⟨start, size⟩
  simp only [Covers, stop] at hFirst hSecond
  simp only [Span.mk.injEq]
  omega

/- A join covers the first of its spans. -/
theorem covers_join_left
    (s t : Span) :
    (s.join t).Covers s := by
  rw [Covers, offset_join, stop_join]
  exact ⟨Nat.min_le_left _ _, Nat.le_max_left _ _⟩

/- A join covers the second of its spans. -/
theorem covers_join_right
    (s t : Span) :
    (s.join t).Covers t := by
  rw [Covers, offset_join, stop_join]
  exact ⟨Nat.min_le_right _ _, Nat.le_max_right _ _⟩

/- What covers two spans covers their join. -/
theorem Covers.join
    {s t u : Span}
    (hFirst : u.Covers s)
    (hSecond : u.Covers t) :
    u.Covers (s.join t) := by
  rw [Covers, offset_join, stop_join]
  exact
    ⟨Nat.le_min.mpr ⟨hFirst.1, hSecond.1⟩,
      Nat.max_le.mpr ⟨hFirst.2, hSecond.2⟩⟩

/- Spans are ordered by coverage, with joins as suprema. -/
instance : SemilatticeSup Span where
  le s t := t.Covers s
  le_refl := Covers.refl
  le_trans _ _ _ hFirst hSecond := hSecond.trans hFirst
  le_antisymm _ _ hFirst hSecond := hFirst.antisymm hSecond
  sup := join
  le_sup_left := covers_join_left
  le_sup_right := covers_join_right
  sup_le _ _ _ hFirst hSecond := hFirst.join hSecond

/- A span fits into words if the span of all words covers it. -/
theorem fits_iff
    {s : Span} :
    s.Fits ↔ s ≤ ⟨0, UInt64.size - 1⟩ := by
  have hSize : 0 < UInt64.size := by
    decide
  change
    s.stop < UInt64.size ↔
      0 ≤ s.offset ∧ s.stop ≤ 0 + (UInt64.size - 1)
  omega

/- A least span that covers spans that fit does so too. -/
theorem fits_of_isLUB
    {spans : List Span}
    {s : Span}
    (hLeast : IsLUB {t | t ∈ spans} s)
    (hFits : ∀ t ∈ spans, t.Fits) :
    s.Fits := by
  rw [fits_iff]
  apply hLeast.2
  intro t hMem
  exact fits_iff.mp (hFits t hMem)

/- A span is the least one that covers itself. -/
theorem isLUB_alone
    (s : Span) :
    IsLUB {t | t ∈ [s]} s := by
  have hAlone : {t | t ∈ [s]} = {s} :=
    Set.ext fun _ => List.mem_singleton
  rw [hAlone]
  exact isLUB_singleton

/- Least spans are joined to the least one that covers all. -/
theorem isLUB_append
    {first second : List Span}
    {s t : Span}
    (hFirst : IsLUB {u | u ∈ first} s)
    (hSecond : IsLUB {u | u ∈ second} t) :
    IsLUB {u | u ∈ first ++ second} (s.join t) := by
  have hAll :
      {u | u ∈ first ++ second} =
        {u | u ∈ first} ∪ {u | u ∈ second} :=
    Set.ext fun _ => List.mem_append
  rw [hAll]
  exact hFirst.union hSecond

end Span

end IntDecl

------------------------------------------------------------
-- Orders Of Joining
------------------------------------------------------------

namespace IntDecl

namespace Span

/-
  A way to join some spans, two at a time, until one is left.
-/
inductive Joining where
| alone (s : Span)
| joined (first second : Joining)

namespace Joining

/- The spans that are joined, from left to right. -/
def spans : Joining → List Span
| alone s => [s]
| joined first second => first.spans ++ second.spans

/- The span that is left. -/
def result : Joining → Span
| alone s => s
| joined first second => first.result.join second.result

/- The span that is left if all is computed in words. -/
def inWords? : Joining → Option WordSpan
| alone s => some s.toWords
| joined first second => do
    let s ← first.inWords?
    let t ← second.inWords?
    s.join? t

/- There is a span to begin with. -/
theorem spans_ne_nil
    (joining : Joining) :
    joining.spans ≠ [] := by
  induction joining with
  | alone s =>
      exact List.cons_ne_nil _ _
  | joined first second hFirst _ =>
      exact List.append_ne_nil_of_left_ne_nil hFirst _

/- What is left is the least span that covers all. -/
theorem isLUB_result
    (joining : Joining) :
    IsLUB {s | s ∈ joining.spans} joining.result := by
  induction joining with
  | alone s =>
      exact isLUB_alone s
  | joined first second hFirst hSecond =>
      exact isLUB_append hFirst hSecond

/- Spans that fit into words are joined in words. -/
theorem inWords?_eq
    {joining : Joining}
    (hFits : ∀ s ∈ joining.spans, s.Fits) :
    joining.inWords? = some joining.result.toWords := by
  induction joining with
  | alone s =>
      rfl
  | joined first second ihFirst ihSecond =>
      rw [spans, List.forall_mem_append] at hFits
      have hFirst :=
        fits_of_isLUB first.isLUB_result hFits.1
      have hSecond :=
        fits_of_isLUB second.isLUB_result hFits.2
      rw [inWords?, ihFirst hFits.1, ihSecond hFits.2]
      exact hFirst.join?_toWords hSecond

end Joining

/-
  Some spans are joined to one and the same span that fits
  into words, whatever the order in which they are taken, and
  also if all is computed in words.
-/
structure JoinTo (spans : List Span) (s : Span) : Prop where
  nonempty : spans ≠ []
  fits : s.Fits
  result :
    ∀ joining : Joining, joining.spans.Perm spans →
      joining.result = s
  inWords :
    ∀ joining : Joining, joining.spans.Perm spans →
      joining.inWords?.map WordSpan.toSpan = some s

/- Spans are joined to the least one that covers them. -/
theorem joinTo_of_isLUB
    {spans : List Span}
    {s : Span}
    (hNonempty : spans ≠ [])
    (hFits : ∀ t ∈ spans, t.Fits)
    (hLeast : IsLUB {t | t ∈ spans} s) :
    JoinTo spans s := by
  have hResult :
      ∀ joining : Joining, joining.spans.Perm spans →
        joining.result = s := by
    intro joining hPerm
    have hSame :
        {t | t ∈ joining.spans} = {t | t ∈ spans} :=
      Set.ext fun _ => hPerm.mem_iff
    have hJoined := joining.isLUB_result
    rw [hSame] at hJoined
    exact hJoined.unique hLeast
  have hFit := fits_of_isLUB hLeast hFits
  refine ⟨hNonempty, hFit, hResult, ?_⟩
  intro joining hPerm
  have hAll : ∀ t ∈ joining.spans, t.Fits := by
    intro t hMem
    exact hFits t (hPerm.mem_iff.mp hMem)
  rw [Joining.inWords?_eq hAll, hResult joining hPerm,
    Option.map_some, hFit.toSpan_toWords]

end Span

end IntDecl

------------------------------------------------------------
-- Spans Of Chains
------------------------------------------------------------

namespace IntDecl

namespace Token

/- The spans of some tokens, from left to right. -/
def spans (tokens : List Token) : List Span :=
  tokens.map fun token => token.span

/- The spans of the numbers among some tokens. -/
def numberSpans (tokens : List Token) : List Span :=
  spans (tokens.filter fun token => token.kind = .number)

/- A number has its span among those of the numbers. -/
theorem numberSpans_number
    {token : Token}
    (hKind : token.kind = .number) :
    numberSpans [token] = [token.span] := by
  simp [numberSpans, spans, hKind]

/- An addition has one more number. -/
theorem numberSpans_addition
    (tokens : List Token)
    {op rhs : Token}
    (hOp : op.kind = .plus)
    (hKind : rhs.kind = .number) :
    numberSpans (tokens ++ [op, rhs]) =
      numberSpans tokens ++ [rhs.span] := by
  simp [numberSpans, spans, hOp, hKind]

/- There are numbers in a chain that adds up. -/
theorem AddsTo.numberSpans_ne_nil
    {block : List Token}
    {total : Int}
    {span : Span}
    (hAdds : AddsTo block total span) :
    numberSpans block ≠ [] := by
  cases hAdds with
  | number hKind _ =>
      rw [numberSpans_number hKind]
      exact List.cons_ne_nil _ _
  | plus _ hOp hKind _ _ =>
      rw [numberSpans_addition _ hOp hKind]
      exact List.concat_ne_nil _ _

/- The total of a chain has the least span over its numbers. -/
theorem AddsTo.isLUB_numberSpans
    {block : List Token}
    {total : Int}
    {span : Span}
    (hAdds : AddsTo block total span) :
    IsLUB {s | s ∈ numberSpans block} span := by
  induction hAdds with
  | number hKind _ =>
      rw [numberSpans_number hKind]
      exact Span.isLUB_alone _
  | plus _ hOp hKind _ _ ih =>
      rw [numberSpans_addition _ hOp hKind]
      exact Span.isLUB_append ih (Span.isLUB_alone _)

/- The span of a chain begins no later than a token of it. -/
theorem AddsTo.exists_offset_le
    {block : List Token}
    {total : Int}
    {span : Span}
    (hAdds : AddsTo block total span) :
    ∃ token ∈ block, span.offset ≤ token.span.offset := by
  induction hAdds with
  | @number token _ _ _ =>
      exact ⟨token, by simp, Nat.le_refl _⟩
  | plus _ _ _ _ _ ih =>
      rcases ih with ⟨token, hMem, hLe⟩
      refine ⟨token, List.mem_append_left _ hMem, ?_⟩
      exact (Nat.min_le_left _ _).trans hLe

/-
  If the tokens of a chain stand in order, then the plus signs
  are between numbers, and the span of the total is the least
  one over all tokens.
-/
theorem AddsTo.isLUB_spans
    {block : List Token}
    {total : Int}
    {span : Span}
    (hAdds : AddsTo block total span)
    (hOrdered : Ordered block) :
    IsLUB {s | s ∈ spans block} span := by
  induction hAdds with
  | number _ _ =>
      exact Span.isLUB_alone _
  | @plus tokens total n span op rhs hTokens _ _ _ _ ih =>
      simp only [Ordered, List.pairwise_append,
        List.pairwise_cons, List.forall_mem_cons]
        at hOrdered
      rcases hOrdered with
        ⟨hFront, ⟨⟨hBefore, _⟩, _⟩, hBehind⟩
      rcases hTokens.exists_offset_le with
        ⟨token, hMem, hLe⟩
      have hStop := (hBehind token hMem).1
      -- The plus sign is behind this token, and the last
      -- number is behind the plus sign.
      have hSign : op.span ≤ span ⊔ rhs.span := by
        change Span.Covers (span.join rhs.span) op.span
        rw [Span.Covers, Span.offset_join, Span.stop_join]
        simp only [Span.stop] at hStop hBefore ⊢
        omega
      have hAll :=
        Span.isLUB_append (ih hFront)
          (Span.isLUB_append (Span.isLUB_alone op.span)
            (Span.isLUB_alone rhs.span))
      have hSpan :
          span ⊔ (op.span ⊔ rhs.span) = span ⊔ rhs.span := by
        rw [sup_left_comm, sup_eq_right.mpr hSign]
      change
        IsLUB {s | s ∈ spans (tokens ++ [op, rhs])}
          (span ⊔ rhs.span)
      rw [← hSpan, spans, List.map_append]
      exact hAll

/-
  What stands for a block is its only token, or it has the
  span to which the spans of the numbers in the block are
  joined, in any order; and all tokens may be taken in if they
  stand in order.
-/
theorem Yields.joinTo
    {block : List Token}
    {token : Token}
    (hYields : Yields block token)
    (hFits : ∀ t ∈ block, t.span.Fits) :
    block = [token] ∨
      Span.JoinTo (numberSpans block) token.span ∧
        (Ordered block →
          Span.JoinTo (spans block) token.span) := by
  cases hYields with
  | single =>
      exact .inl rfl
  | total hLong hAdds =>
      right
      have hSpans : ∀ s ∈ spans block, s.Fits :=
        List.forall_mem_map.mpr hFits
      have hNumbers : ∀ s ∈ numberSpans block, s.Fits := by
        rw [numberSpans, spans, List.forall_mem_map]
        intro t hMem
        exact hFits t (List.mem_filter.mp hMem).1
      constructor
      · exact
          Span.joinTo_of_isLUB hAdds.numberSpans_ne_nil
            hNumbers hAdds.isLUB_numberSpans
      · intro hOrdered
        have hNonempty : spans block ≠ [] := by
          rw [spans, Ne, List.map_eq_nil_iff]
          exact List.ne_nil_of_length_pos (by omega)
        exact
          Span.joinTo_of_isLUB hNonempty hSpans
            (hAdds.isLUB_spans hOrdered)

end Token

end IntDecl

------------------------------------------------------------
-- Joins As Least Covers
------------------------------------------------------------

namespace IntDecl

namespace Span

/-
  The join of two spans is the least span that covers both.
  If they fit into words, then it does so as well, and no sum
  and no difference on the way is out of words. So it does not
  matter in which order spans are joined.

  Folding leaves one token for each block of a sequence. If
  that is not the only token of the block, then its span is
  the one to which the spans of the numbers in the block are
  joined in every order, and those of all its tokens too if
  they stand in order.
-/
theorem join_least :
    (∀ s t : Span, s.Fits → t.Fits →
        (s.join t).Covers s ∧ (s.join t).Covers t ∧
          (∀ u : Span, u.Covers s → u.Covers t →
            u.Covers (s.join t)) ∧
          (s.join t).Fits ∧
          (s.toWords.join? t.toWords).map WordSpan.toSpan =
            some (s.join t)) ∧
      (∀ s t : Span, s.join t = t.join s) ∧
      (∀ s t u : Span,
        (s.join t).join u = s.join (t.join u)) ∧
      (∀ s : Span, s.join s = s) ∧
      (∀ joining : Joining,
        (∀ s ∈ joining.spans, s.Fits) →
          JoinTo joining.spans joining.result) ∧
      ∀ ts : TokenSequence,
        (∀ token ∈ ts.body, token.span.Fits) →
          ∃ blocks, Token.Partition blocks ∧
            blocks.flatten = ts.body ∧
            List.Forall₂
              (fun block token =>
                block = [token] ∨
                  JoinTo (Token.numberSpans block)
                      token.span ∧
                    (Token.Ordered block →
                      JoinTo (Token.spans block)
                        token.span))
              blocks ts.fold.body := by
  refine ⟨?_, sup_comm, sup_assoc, sup_idem, ?_, ?_⟩
  · intro s t hFirst hSecond
    have hFits := hFirst.join hSecond
    refine
      ⟨covers_join_left s t, covers_join_right s t,
        fun u => Covers.join, hFits, ?_⟩
    rw [hFirst.join?_toWords hSecond, Option.map_some,
      hFits.toSpan_toWords]
  · intro joining hFits
    exact
      joinTo_of_isLUB joining.spans_ne_nil hFits
        joining.isLUB_result
  · intro ts hFits
    rcases Token.exists_partition ts.body with
      ⟨blocks, hPartition, hFlat⟩
    rw [← hFlat] at hFits
    have hBoth := hPartition.forall_yields_contract hFits
    rw [hFlat, ← TokenSequence.body_fold] at hBoth
    refine ⟨blocks, hPartition, hFlat, hBoth.imp ?_⟩
    intro block token hToken
    exact hToken.2.joinTo hToken.1

/-
  A span that stops at the largest word, an empty one far in
  front of it, and a chain whose tokens do not stand in order.
-/
theorem join_least_up_to_largest_word :
    let s : Span := ⟨18446744073709551613, 2⟩
    let t : Span := ⟨7, 0⟩
    let ts : TokenSequence :=
      ⟨[⟨⟨.number, "1"⟩, s⟩, ⟨⟨.plus, "+"⟩, t⟩,
        ⟨⟨.number, "2"⟩, t⟩, ⟨⟨.plus, "+"⟩, s⟩,
        ⟨⟨.number, "3"⟩, ⟨5, 4⟩⟩], ⟨0, 0⟩, by decide⟩
    s.Fits ∧ t.Fits ∧
      s.join t = ⟨7, 18446744073709551608⟩ ∧
      (s.toWords.join? t.toWords).map WordSpan.toSpan =
        some (s.join t) ∧
      (∀ token ∈ ts.body, token.span.Fits) ∧
      ts.fold.body =
        [⟨⟨.number, "6"⟩, ⟨5, 18446744073709551610⟩⟩] ∧
      ∃ blocks, Token.Partition blocks ∧
        blocks.flatten = ts.body ∧
        List.Forall₂
          (fun block token =>
            block = [token] ∨
              JoinTo (Token.numberSpans block) token.span ∧
                (Token.Ordered block →
                  JoinTo (Token.spans block) token.span))
          blocks ts.fold.body := by
  intro s t ts
  have hFirst : s.Fits := by decide
  have hSecond : t.Fits := by decide
  have hFits : ∀ token ∈ ts.body, token.span.Fits := by
    decide
  rcases join_least with ⟨hJoin, _, _, _, _, hFold⟩
  rcases hJoin s t hFirst hSecond with ⟨_, _, _, _, hWords⟩
  exact
    ⟨hFirst, hSecond, by decide, hWords, hFits,
      by decide +kernel, hFold ts hFits⟩

end Span

end IntDecl
