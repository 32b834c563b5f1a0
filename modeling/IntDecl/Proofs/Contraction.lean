import IntDecl.Folding

/-
  This file follows folding one window at a time.

  The tokens that folding leaves depend neither on the
  position where it starts nor on the events that it reports.
  They come about by contractions, each of which puts one
  number in the place of an addition, so what every
  contraction keeps is kept by folding. Tokens are folded
  apart from those behind them where no addition stands
  across the border, as at every token that is neither a
  number nor a plus sign.

  Key definitions include:
    * `Token.window?`
    * `Token.contract`
    * `Token.Contracts`
    * `Token.Apart`
    * `Token.IsBarrier`

  Key theorems include:
    * `Token.sum?_eq_some_iff`
    * `Token.sum?_of_isDigits`
    * `Token.value_of_sum?`
    * `Folded.tokens_ofTokens`
    * `TokenSequence.body_fold`
    * `Token.contract_induction`
    * `Token.forall_mem_contract`
    * `Token.contract_append`
    * `Token.contract_append_barrier`
    * `TokenSequence.exists_fold_around_barrier`
-/

------------------------------------------------------------
-- Sums
------------------------------------------------------------

namespace IntDecl

namespace Token

/- Two tokens have a sum if they can be read and it fits. -/
theorem sum?_eq_some_iff
    {lhs rhs sum : Token} :
    lhs.sum? rhs = some sum ↔
      ∃ m n, Numeral.read? lhs.text = some m ∧
        Numeral.read? rhs.text = some n ∧
        Numeral.InBounds (m + n) ∧
        sum =
          { kind := .number
            text := Numeral.write (m + n)
            span := lhs.span.join rhs.span } := by
  unfold sum?
  split
  case h_1 m n hLeft hRight =>
    constructor
    · intro hSum
      rw [Option.map_eq_some_iff] at hSum
      rcases hSum with ⟨total, hTotal, hToken⟩
      rw [Numeral.add?, Option.ite_none_right_eq_some,
        Option.some_inj] at hTotal
      rcases hTotal with ⟨hBounds, rfl⟩
      exact ⟨m, n, hLeft, hRight, hBounds, hToken.symm⟩
    · intro hSum
      rcases hSum with ⟨k, l, hFirst, hSecond, hBounds, rfl⟩
      rw [hLeft, Option.some_inj] at hFirst
      rw [hRight, Option.some_inj] at hSecond
      rw [hFirst, hSecond, Numeral.add?, if_pos hBounds]
      rfl
  case h_2 hUnread =>
    constructor
    · intro hSum
      cases hSum
    · intro hSum
      rcases hSum with ⟨m, n, hLeft, hRight, _⟩
      exact (hUnread m n hLeft hRight).elim

end Token

end IntDecl

------------------------------------------------------------
-- Sums Of Digits
------------------------------------------------------------

namespace IntDecl

namespace Token

/-
  Runs of digits have a sum exactly if it is in bounds, since
  neither of them is larger than the sum.
-/
theorem sum?_of_isDigits
    {lhs rhs : Token}
    (hLeft : Numeral.IsDigits lhs.text.toList)
    (hRight : Numeral.IsDigits rhs.text.toList) :
    lhs.sum? rhs =
      let total : Nat :=
        Numeral.value lhs.text.toList +
          Numeral.value rhs.text.toList
      if Numeral.InBounds total then
        some
          { kind := .number
            text := Numeral.write total
            span := lhs.span.join rhs.span }
      else
        none := by
  rw [sum?, Numeral.read?_of_isDigits hLeft,
    Numeral.read?_of_isDigits hRight]
  by_cases hTotal :
      Numeral.InBounds
        (Numeral.value lhs.text.toList +
          Numeral.value rhs.text.toList : Nat)
  · rw [if_pos (hTotal.of_le (Nat.le_add_right _ _)),
      if_pos (hTotal.of_le (Nat.le_add_left _ _))]
    simp only [Numeral.add?, ← Int.natCast_add]
    rw [if_pos hTotal, if_pos hTotal]
    rfl
  · simp only [if_neg hTotal]
    split
    case h_1 m n hFirst hSecond =>
      rw [Option.ite_none_right_eq_some, Option.some_inj]
        at hFirst hSecond
      rw [Numeral.add?, ← hFirst.2, ← hSecond.2,
        ← Int.natCast_add, if_neg hTotal]
      rfl
    case h_2 =>
      rfl

/- A sum of runs of digits is a run of digits for the sum. -/
theorem value_of_sum?
    {lhs rhs sum : Token}
    (hLeft : Numeral.IsDigits lhs.text.toList)
    (hRight : Numeral.IsDigits rhs.text.toList)
    (hSum : lhs.sum? rhs = some sum) :
    Numeral.IsDigits sum.text.toList ∧
      Numeral.value sum.text.toList =
        Numeral.value lhs.text.toList +
          Numeral.value rhs.text.toList := by
  rw [sum?_of_isDigits hLeft hRight] at hSum
  simp only [Option.ite_none_right_eq_some,
    Option.some_inj] at hSum
  rcases hSum with ⟨_, hToken⟩
  have hText :
      sum.text.toList =
        Nat.toDigits 10 (Numeral.value lhs.text.toList +
          Numeral.value rhs.text.toList) := by
    rw [← hToken]
    exact String.toList_ofList
  rw [hText]
  exact
    ⟨Numeral.isDigits_toDigits _, Numeral.value_toDigits _⟩

end Token

end IntDecl

------------------------------------------------------------
-- Folding Without Events
------------------------------------------------------------

namespace IntDecl

namespace Token

/- The sum that takes the place of a window, if one does. -/
def window? (lhs op rhs : Token) : Option Token :=
  if lhs.IsAddition op rhs then lhs.sum? rhs else none

/- A window that gives way is an addition with a sum. -/
theorem window?_eq_some_iff
    {lhs op rhs sum : Token} :
    window? lhs op rhs = some sum ↔
      lhs.IsAddition op rhs ∧ lhs.sum? rhs = some sum := by
  unfold window?
  split
  case isTrue hAddition =>
    exact ⟨fun hSum => ⟨hAddition, hSum⟩, And.right⟩
  case isFalse hOther =>
    constructor
    · intro hNone
      cases hNone
    · intro hBoth
      exact absurd hBoth.1 hOther

/- A window that is no addition stays as it is. -/
theorem window?_of_not_isAddition
    {lhs op rhs : Token}
    (hOther : ¬ lhs.IsAddition op rhs) :
    window? lhs op rhs = none :=
  if_neg hOther

/- A window gives way to a number that takes its span. -/
theorem eq_of_window?
    {lhs op rhs sum : Token}
    (hWindow : window? lhs op rhs = some sum) :
    sum.kind = .number ∧
      sum.span = lhs.span.join rhs.span := by
  have hSum := (window?_eq_some_iff.mp hWindow).2
  rcases sum?_eq_some_iff.mp hSum with
    ⟨_, _, _, _, _, hToken⟩
  rw [hToken]
  exact ⟨rfl, rfl⟩

/- The tokens that folding leaves of some tokens. -/
def contract : List Token → List Token
| lhs :: op :: rhs :: rest =>
    match window? lhs op rhs with
    | some sum => contract (sum :: rest)
    | none => lhs :: contract (op :: rhs :: rest)
| tokens => tokens
termination_by tokens => tokens.length

@[simp] theorem contract_nil :
    contract [] = [] := by
  simp [contract]

@[simp] theorem contract_singleton
    (token : Token) :
    contract [token] = [token] := by
  simp [contract]

/- Tokens among which no window fits are less than three. -/
theorem length_lt_of_short
    {tokens : List Token}
    (hShort :
      ∀ lhs op rhs rest,
        tokens = lhs :: op :: rhs :: rest → False) :
    tokens.length < 3 := by
  match tokens with
  | [] | [_] | [_, _] =>
      simp
  | lhs :: op :: rhs :: rest =>
      exact absurd rfl (hShort lhs op rhs rest)

end Token

namespace Folded

/- Folding leaves the same tokens from every position on. -/
theorem tokens_ofTokens
    (position : Nat)
    (tokens : List Token) :
    (ofTokens position tokens).tokens =
      Token.contract tokens := by
  fun_induction ofTokens position tokens with
  | case1 position lhs op rhs rest hAddition sum hSum ih =>
      rw [Token.contract, Token.window?, if_pos hAddition,
        hSum]
      exact ih
  | case2 position lhs op rhs rest hAddition hSum ih =>
      rw [Token.contract, Token.window?, if_pos hAddition,
        hSum]
      exact congrArg (lhs :: ·) ih
  | case3 position lhs op rhs rest hAddition ih =>
      rw [Token.contract, Token.window?, if_neg hAddition]
      exact congrArg (lhs :: ·) ih
  | case4 position tokens hShort =>
      rw [Token.contract]
      exact hShort

end Folded

namespace TokenSequence

/- The tokens of a folded sequence. -/
theorem body_fold
    (ts : TokenSequence) :
    ts.fold.body = Token.contract ts.body :=
  Folded.tokens_ofTokens 0 ts.body

end TokenSequence

end IntDecl

------------------------------------------------------------
-- Contractions
------------------------------------------------------------

namespace IntDecl

namespace Token

/- One addition among some tokens gives way to its sum. -/
inductive Contracts : List Token → List Token → Prop where
| window
    {before after : List Token}
    {lhs op rhs sum : Token}
    (hWindow : window? lhs op rhs = some sum) :
    Contracts (before ++ lhs :: op :: rhs :: after)
      (before ++ sum :: after)

/-
  What every contraction keeps is kept by folding, also
  behind tokens that have been passed.
-/
theorem contract_append_induction
    {property : List Token → Prop}
    (hStep :
      ∀ tokens others, Contracts tokens others →
        property tokens → property others)
    (before tokens : List Token)
    (hBefore : property (before ++ tokens)) :
    property (before ++ contract tokens) := by
  fun_induction contract tokens generalizing before with
  | case1 lhs op rhs rest sum hSum ih =>
      exact ih before (hStep _ _ (.window hSum) hBefore)
  | case2 lhs op rhs rest hNone ih =>
      have hLater := ih (before ++ [lhs])
      rw [List.append_assoc, List.append_assoc] at hLater
      exact hLater hBefore
  | case3 tokens hShort =>
      exact hBefore

/- What every contraction keeps is kept by folding. -/
theorem contract_induction
    {property : List Token → Prop}
    (hStep :
      ∀ tokens others, Contracts tokens others →
        property tokens → property others)
    {tokens : List Token}
    (hTokens : property tokens) :
    property (contract tokens) :=
  contract_append_induction hStep [] tokens hTokens

/-
  What a sum has from its two numbers is kept by the tokens of
  a contraction.
-/
theorem Contracts.forall_mem
    {property : Token → Prop}
    (hSum :
      ∀ lhs op rhs sum, window? lhs op rhs = some sum →
        property lhs → property rhs → property sum)
    {tokens others : List Token}
    (hContracts : Contracts tokens others)
    (hTokens : ∀ token ∈ tokens, property token) :
    ∀ token ∈ others, property token := by
  rcases hContracts with @⟨before, after, lhs, op, rhs, sum,
    hWindow⟩
  simp only [List.forall_mem_append, List.forall_mem_cons]
    at hTokens ⊢
  rcases hTokens with ⟨hBefore, hLeft, _, hRight, hAfter⟩
  exact
    ⟨hBefore, hSum lhs op rhs sum hWindow hLeft hRight,
      hAfter⟩

/- What a sum has from its two numbers is kept by folding. -/
theorem forall_mem_contract
    {property : Token → Prop}
    (hSum :
      ∀ lhs op rhs sum, window? lhs op rhs = some sum →
        property lhs → property rhs → property sum)
    {tokens : List Token}
    (hTokens : ∀ token ∈ tokens, property token) :
    ∀ token ∈ contract tokens, property token := by
  have hStep :
      ∀ before after, Contracts before after →
        (∀ token ∈ before, property token) →
          ∀ token ∈ after, property token := by
    intro before after hContracts hBefore
    exact hContracts.forall_mem hSum hBefore
  exact contract_induction hStep hTokens

end Token

end IntDecl

------------------------------------------------------------
-- Borders
------------------------------------------------------------

namespace IntDecl

namespace Token

/- A token stays where it is in front of no window. -/
theorem contract_cons_of_window?
    {lhs : Token}
    {tokens : List Token}
    (hNone :
      ∀ op rhs rest, tokens = op :: rhs :: rest →
        window? lhs op rhs = none) :
    contract (lhs :: tokens) = lhs :: contract tokens := by
  match tokens with
  | [] =>
      simp
  | [op] =>
      simp [contract]
  | op :: rhs :: rest =>
      rw [contract, hNone op rhs rest rfl]

/- A token that is no number stays where it is. -/
theorem contract_cons_of_ne_number
    {lhs : Token}
    (hKind : lhs.kind ≠ .number)
    (tokens : List Token) :
    contract (lhs :: tokens) = lhs :: contract tokens := by
  apply contract_cons_of_window?
  intro op rhs rest _
  apply window?_of_not_isAddition
  intro hAddition
  exact hKind hAddition.1

/-
  Some tokens are apart from others behind them when no
  addition stands across the border: neither behind its first
  number nor behind its plus sign.
-/
structure Apart (first second : List Token) : Prop where
  behindNumber :
    [.number] <:+ kinds first →
      ¬ [.plus, .number] <+: kinds second
  behindPlus :
    [.number, .plus] <:+ kinds first →
      ¬ [.number] <+: kinds second

/- What comes last decides whether tokens are apart. -/
theorem Apart.of_suffix
    {first last second : List Token}
    (hApart : Apart first second)
    (hSuffix : kinds last <:+ kinds first) :
    Apart last second where
  behindNumber hNumber :=
    hApart.behindNumber (hNumber.trans hSuffix)
  behindPlus hPlus :=
    hApart.behindPlus (hPlus.trans hSuffix)

/- A token that is apart from those behind it stays. -/
theorem Apart.contract_cons
    {lhs : Token}
    {second : List Token}
    (hApart : Apart [lhs] second) :
    contract (lhs :: second) = lhs :: contract second := by
  apply contract_cons_of_window?
  intro op rhs rest hSecond
  apply window?_of_not_isAddition
  intro hAddition
  rcases hAddition with ⟨hLeft, hOp, hRight⟩
  subst hSecond
  apply hApart.behindNumber
  · rw [← hLeft]
    exact List.suffix_rfl
  · rw [← hOp, ← hRight]
    exact List.prefix_append _ (kinds rest)

/- Two tokens that are apart from those behind them stay. -/
theorem Apart.contract_cons_cons
    {lhs op : Token}
    {second : List Token}
    (hApart : Apart [lhs, op] second) :
    contract (lhs :: op :: second) =
      lhs :: op :: contract second := by
  have hLast : Apart [op] second :=
    hApart.of_suffix (List.suffix_cons lhs.kind [op.kind])
  rw [contract_cons_of_window?, hLast.contract_cons]
  intro plus rhs rest hSecond
  cases hSecond
  apply window?_of_not_isAddition
  intro hAddition
  rcases hAddition with ⟨hLeft, hOp, hRight⟩
  apply hApart.behindPlus
  · rw [← hLeft, ← hOp]
    exact List.suffix_rfl
  · rw [← hRight]
    exact List.prefix_append _ (kinds rest)

/- Tokens that are apart are folded apart. -/
theorem contract_append
    {first second : List Token}
    (hApart : Apart first second) :
    contract (first ++ second) =
      contract first ++ contract second := by
  fun_induction contract first with
  | case1 lhs op rhs rest sum hSum ih =>
      -- The sum is a number, as the last token of its window.
      have hSuffix :
          kinds (sum :: rest) <:+
            kinds (lhs :: op :: rhs :: rest) := by
        have hRight :=
          (window?_eq_some_iff.mp hSum).1.2.2
        refine ⟨[lhs.kind, op.kind], ?_⟩
        simp [kinds, (eq_of_window? hSum).1, hRight]
      simp only [List.cons_append]
      rw [contract, hSum]
      exact ih (hApart.of_suffix hSuffix)
  | case2 lhs op rhs rest hNone ih =>
      simp only [List.cons_append]
      rw [contract, hNone]
      exact congrArg (lhs :: ·)
        (ih (hApart.of_suffix (List.suffix_cons _ _)))
  | case3 first hShort =>
      match first with
      | [] =>
          rfl
      | [lhs] =>
          exact hApart.contract_cons
      | [lhs, op] =>
          exact hApart.contract_cons_cons
      | lhs :: op :: rhs :: rest =>
          exact absurd rfl (hShort lhs op rhs rest)

end Token

end IntDecl

------------------------------------------------------------
-- Barriers
------------------------------------------------------------

namespace IntDecl

namespace Token

/- A token that is no part of an addition. -/
def IsBarrier (token : Token) : Prop :=
  token.kind ≠ .number ∧ token.kind ≠ .plus

/- End marks are barriers. -/
theorem isBarrier_endOfInput
    (marker : Span) :
    (endOfInput marker).IsBarrier := by
  constructor
  · intro hNumber
    cases hNumber
  · intro hPlus
    cases hPlus

/- A window with a barrier in it stays as it is. -/
theorem window?_of_barrier
    {lhs op rhs : Token}
    (hBarrier :
      lhs.IsBarrier ∨ op.IsBarrier ∨ rhs.IsBarrier) :
    window? lhs op rhs = none := by
  apply window?_of_not_isAddition
  intro hAddition
  rcases hAddition with ⟨hLeft, hPlus, hRight⟩
  rcases hBarrier with hFirst | hSecond | hThird
  · exact hFirst.1 hLeft
  · exact hSecond.2 hPlus
  · exact hThird.1 hRight

/- Tokens are apart from a barrier behind them. -/
theorem IsBarrier.apart_cons
    {barrier : Token}
    (hBarrier : barrier.IsBarrier)
    (before after : List Token) :
    Apart before (barrier :: after) where
  behindNumber _ hPlus :=
    hBarrier.2 (List.cons_prefix_cons.mp hPlus).1.symm
  behindPlus _ hNumber :=
    hBarrier.1 (List.cons_prefix_cons.mp hNumber).1.symm

/- Tokens up to a barrier are apart from those behind it. -/
theorem IsBarrier.apart_of_getLast?
    {barrier : Token}
    {tokens : List Token}
    (hBarrier : barrier.IsBarrier)
    (hLast : tokens.getLast? = some barrier)
    (after : List Token) :
    Apart tokens after := by
  have hKind :
      (kinds tokens).getLast? = some barrier.kind := by
    rw [kinds, List.getLast?_map, hLast]
    rfl
  constructor
  · intro hNumber
    rcases hNumber with ⟨front, hKinds⟩
    rw [← hKinds, List.getLast?_concat, Option.some_inj]
      at hKind
    exact absurd hKind.symm hBarrier.1
  · intro hPlus
    rcases hPlus with ⟨front, hKinds⟩
    rw [← hKinds, List.append_cons, List.getLast?_concat,
      Option.some_inj] at hKind
    exact absurd hKind.symm hBarrier.2

/- Tokens on the two sides of a barrier are folded apart. -/
theorem contract_append_barrier
    {barrier : Token}
    (hBarrier : barrier.IsBarrier)
    (before after : List Token) :
    contract (before ++ barrier :: after) =
      contract before ++ barrier :: contract after := by
  have hAlone : Apart [barrier] after :=
    hBarrier.apart_of_getLast? rfl after
  rw [contract_append (hBarrier.apart_cons before after),
    hAlone.contract_cons]

end Token

end IntDecl

------------------------------------------------------------
-- Sequences Around A Barrier
------------------------------------------------------------

namespace IntDecl

namespace TokenSequence

/- Tokens form a sequence if none of them is an end mark. -/
theorem exists_ofTokens_eq_ok
    {tokens : List Token}
    (hUnmarked : ∀ token ∈ tokens, token.kind ≠ .endOfInput)
    (marker : Span) :
    ∃ ts, ofTokens tokens marker = .ok ts ∧
      ts.body = tokens :=
  ⟨_, dif_pos hUnmarked, rfl⟩

/-
  Tokens before and behind a barrier form sequences on their
  own and together with it. Folding them together leaves what
  it leaves of the first ones, the barrier, and what it leaves
  of the last ones, wherever the end marks stand.
-/
theorem exists_fold_around_barrier
    {first second : List Token}
    {barrier : Token}
    (hFirst : ∀ token ∈ first, token.kind ≠ .endOfInput)
    (hSecond : ∀ token ∈ second, token.kind ≠ .endOfInput)
    (hBarrier :
      barrier.kind ∉ [.number, .plus, .endOfInput])
    (marker firstMarker secondMarker : Span) :
    ∃ whole left right,
      ofTokens (first ++ [barrier] ++ second) marker =
          .ok whole ∧
        ofTokens first firstMarker = .ok left ∧
        ofTokens second secondMarker = .ok right ∧
        whole.fold.body =
          left.fold.body ++ [barrier] ++ right.fold.body := by
  simp only [List.mem_cons, List.not_mem_nil, or_false,
    not_or] at hBarrier
  rcases hBarrier with ⟨hNumber, hPlus, hMarker⟩
  have hWhole :
      ∀ token ∈ first ++ [barrier] ++ second,
        token.kind ≠ .endOfInput := by
    rw [List.forall_mem_append, List.forall_mem_append,
      List.forall_mem_singleton]
    exact ⟨⟨hFirst, hMarker⟩, hSecond⟩
  rcases exists_ofTokens_eq_ok hWhole marker with
    ⟨whole, hOk, hBody⟩
  rcases exists_ofTokens_eq_ok hFirst firstMarker with
    ⟨left, hLeftOk, hLeft⟩
  rcases exists_ofTokens_eq_ok hSecond secondMarker with
    ⟨right, hRightOk, hRight⟩
  refine
    ⟨whole, left, right, hOk, hLeftOk, hRightOk, ?_⟩
  rw [body_fold, body_fold, body_fold, hBody, hLeft, hRight,
    List.append_assoc, List.append_assoc,
    List.singleton_append, List.singleton_append]
  exact
    Token.contract_append_barrier ⟨hNumber, hPlus⟩ first second

/-
  An addition that stops short at the barrier, with a number
  and a plus sign in front of it, and one that is out of
  bounds behind it.
-/
theorem exists_fold_around_barrier_multiply :
    let number (text : String) (offset : Nat) : Token :=
      ⟨⟨.number, text⟩, ⟨offset, text.length⟩⟩
    let plus (offset : Nat) : Token :=
      ⟨⟨.plus, "+"⟩, ⟨offset, 1⟩⟩
    let first :=
      [number "1" 0, plus 1, number "02" 2, plus 4]
    let barrier : Token := ⟨⟨.multiply, "*"⟩, ⟨5, 1⟩⟩
    let second :=
      [number "9223372036854775807" 6, plus 25,
        number "1" 26, plus 27, number "1" 28]
    (∀ token ∈ first, token.kind ≠ .endOfInput) ∧
      (∀ token ∈ second, token.kind ≠ .endOfInput) ∧
      barrier.kind ∉ [.number, .plus, .endOfInput] ∧
      ∃ whole left right,
        ofTokens (first ++ [barrier] ++ second) ⟨29, 0⟩ =
            .ok whole ∧
          ofTokens first ⟨5, 0⟩ = .ok left ∧
          ofTokens second ⟨29, 0⟩ = .ok right ∧
          whole.fold.body =
            left.fold.body ++ [barrier] ++
              right.fold.body := by
  intro number plus first barrier second
  have hFirst :
      ∀ token ∈ first, token.kind ≠ .endOfInput := by
    decide
  have hSecond :
      ∀ token ∈ second, token.kind ≠ .endOfInput := by
    decide
  have hBarrier :
      barrier.kind ∉ [.number, .plus, .endOfInput] := by
    decide
  exact
    ⟨hFirst, hSecond, hBarrier,
      exists_fold_around_barrier hFirst hSecond hBarrier
        ⟨29, 0⟩ ⟨5, 0⟩ ⟨29, 0⟩⟩

end TokenSequence

end IntDecl
