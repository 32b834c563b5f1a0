import IntDecl.Proofs.Contraction
import IntDecl.Proofs.Scanning

/-
  This file shows that folding leaves nothing to fold where
  all numbers are runs of digits.

  Folding does not come back to a window that it has passed.
  A window is passed for good, because its last number can
  only grow while folding goes on behind it: a sum that is
  out of bounds stays out of bounds.

  Key definitions include:
    * `Token.Numeric`
    * `Token.GrowsTo`
    * `Token.Settled`

  Key theorems include:
    * `Token.settled_contract`
    * `Token.contract_of_settled`
    * `TokenSequence.settled_fold`
-/

------------------------------------------------------------
-- Runs Of Digits
------------------------------------------------------------

namespace IntDecl

namespace Token

/- A token whose text is a run of digits if it is a number. -/
def IsNumeric (token : Token) : Prop :=
  token.kind = .number →
    Numeral.IsDigits token.text.toList

/- All numbers among some tokens are runs of digits. -/
def Numeric (tokens : List Token) : Prop :=
  ∀ token ∈ tokens, token.IsNumeric

/- A window of runs of digits gives way to their sum. -/
theorem value_of_window?
    {lhs op rhs sum : Token}
    (hWindow : window? lhs op rhs = some sum)
    (hLeft : lhs.IsNumeric)
    (hRight : rhs.IsNumeric) :
    Numeral.IsDigits sum.text.toList ∧
      Numeral.value sum.text.toList =
        Numeral.value lhs.text.toList +
          Numeral.value rhs.text.toList := by
  rcases window?_eq_some_iff.mp hWindow with
    ⟨⟨hFirst, _, hSecond⟩, hSum⟩
  exact value_of_sum? (hLeft hFirst) (hRight hSecond) hSum

/- Contractions keep runs of digits. -/
theorem Contracts.numeric
    {tokens others : List Token}
    (hContracts : Contracts tokens others)
    (hNumeric : Numeric tokens) :
    Numeric others := by
  apply hContracts.forall_mem _ hNumeric
  intro lhs op rhs sum hWindow hLeft hRight _
  exact (value_of_window? hWindow hLeft hRight).1

/- Valid numbers are runs of digits. -/
theorem isNumeric_of_isValid
    {token : Token}
    (hValid : token.toLexeme.IsValid) :
    token.IsNumeric := by
  intro hKind
  rwa [Lexeme.IsValid, hKind] at hValid

end Token

end IntDecl

------------------------------------------------------------
-- Tokens That Grow
------------------------------------------------------------

namespace IntDecl

namespace Token

/-
  A token gives way to one of its kind that stands for no
  smaller number.
-/
structure GrowsTo (first last : Token) : Prop where
  kind : last.kind = first.kind
  value :
    Numeral.value first.text.toList ≤
      Numeral.value last.text.toList

/-
  The first of some tokens can only grow by contractions
  among them.
-/
theorem Contracts.exists_growsTo
    {first : Token}
    {tokens others : List Token}
    (hContracts : Contracts tokens others)
    (hNumeric : Numeric tokens)
    (hHead : ∃ last ∈ tokens.head?, first.GrowsTo last) :
    ∃ last ∈ others.head?, first.GrowsTo last := by
  rcases hContracts with @⟨before, after, lhs, op, rhs, sum,
    hWindow⟩
  cases before with
  | nil =>
      rcases hHead with ⟨last, hLast, hGrows⟩
      cases hLast
      simp only [Numeric, List.nil_append,
        List.forall_mem_cons] at hNumeric
      rcases hNumeric with ⟨hLeft, _, hRight, _⟩
      have hAddition := (window?_eq_some_iff.mp hWindow).1
      have hValue :=
        (value_of_window? hWindow hLeft hRight).2
      refine ⟨sum, rfl, ?_, ?_⟩
      · rw [(eq_of_window? hWindow).1, ← hGrows.kind,
          hAddition.1]
      · have hLess := hGrows.value
        omega
  | cons token before =>
      exact hHead

/- Folding keeps the first token or lets it grow. -/
theorem exists_contract_cons
    {token : Token}
    {tokens : List Token}
    (hNumeric : Numeric (token :: tokens)) :
    ∃ last rest, contract (token :: tokens) = last :: rest ∧
      token.GrowsTo last ∧ last.IsNumeric := by
  have hStep :
      ∀ first second, Contracts first second →
        (Numeric first ∧
            ∃ last ∈ first.head?, token.GrowsTo last) →
          Numeric second ∧
            ∃ last ∈ second.head?, token.GrowsTo last := by
    intro first second hContracts hFirst
    exact
      ⟨hContracts.numeric hFirst.1,
        hContracts.exists_growsTo hFirst.1 hFirst.2⟩
  have hStart :
      Numeric (token :: tokens) ∧
        ∃ last ∈ (token :: tokens).head?,
          token.GrowsTo last :=
    ⟨hNumeric, token, rfl, rfl, Nat.le_refl _⟩
  rcases contract_induction hStep hStart with
    ⟨hFolded, last, hLast, hGrows⟩
  rcases List.head?_eq_some_iff.mp hLast with ⟨rest, hRest⟩
  refine ⟨last, rest, hRest, hGrows, hFolded last ?_⟩
  rw [hRest]
  exact List.mem_cons_self

/-
  A window that does not give way does not do so either when
  its last number has grown.
-/
theorem window?_of_growsTo
    {lhs op rhs last : Token}
    (hNone : window? lhs op rhs = none)
    (hGrows : rhs.GrowsTo last)
    (hLeft : lhs.IsNumeric)
    (hRight : rhs.IsNumeric)
    (hLast : last.IsNumeric) :
    window? lhs op last = none := by
  rw [Option.eq_none_iff_forall_ne_some]
  intro sum hWindow
  rcases window?_eq_some_iff.mp hWindow with
    ⟨⟨hFirst, hPlus, hThird⟩, hSum⟩
  have hSecond : rhs.kind = .number := by
    rw [← hGrows.kind, hThird]
  have hAddition : lhs.IsAddition op rhs :=
    ⟨hFirst, hPlus, hSecond⟩
  rw [sum?_of_isDigits (hLeft hFirst) (hLast hThird)] at hSum
  rw [window?, if_pos hAddition,
    sum?_of_isDigits (hLeft hFirst) (hRight hSecond)]
    at hNone
  simp only [Option.ite_none_right_eq_some] at hSum
  simp only [ite_eq_right_iff] at hNone
  have hLe := Nat.add_le_add_left hGrows.value
    (Numeral.value lhs.text.toList)
  cases hNone (hSum.1.of_le hLe)

end Token

end IntDecl

------------------------------------------------------------
-- Settled Tokens
------------------------------------------------------------

namespace IntDecl

namespace Token

/- No three tokens in a row give way to a sum. -/
def Settled (tokens : List Token) : Prop :=
  ∀ lhs op rhs, [lhs, op, rhs] <:+: tokens →
    window? lhs op rhs = none

/- Tokens are settled window by window. -/
theorem settled_cons_iff
    {lhs : Token}
    {tokens : List Token} :
    Settled (lhs :: tokens) ↔
      (∀ op rhs rest, tokens = op :: rhs :: rest →
          window? lhs op rhs = none) ∧
        Settled tokens := by
  constructor
  · intro hSettled
    constructor
    · intro op rhs rest hTokens
      apply hSettled
      rw [hTokens]
      exact ⟨[], rest, rfl⟩
    · intro first op rhs hInfix
      exact hSettled first op rhs (List.infix_cons hInfix)
  · intro hParts first op rhs hInfix
    rcases List.infix_cons_iff.mp hInfix with
      hPrefix | hLater
    · rcases List.cons_prefix_cons.mp hPrefix with
        ⟨rfl, rest, hRest⟩
      exact hParts.1 op rhs rest hRest.symm
    · exact hParts.2 first op rhs hLater

/- Less than three tokens are settled. -/
theorem settled_of_length
    {tokens : List Token}
    (hLength : tokens.length < 3) :
    Settled tokens := by
  intro lhs op rhs hInfix
  have hThree : 3 ≤ tokens.length := hInfix.length_le
  omega

/- An end mark behind settled tokens gives way to nothing. -/
theorem Settled.concat_endOfInput
    {tokens : List Token}
    (hSettled : Settled tokens)
    (marker : Span) :
    Settled (tokens ++ [endOfInput marker]) := by
  induction tokens with
  | nil =>
      exact settled_of_length (by simp)
  | cons lhs tokens ih =>
      rw [settled_cons_iff] at hSettled
      rw [List.cons_append, settled_cons_iff]
      refine ⟨?_, ih hSettled.2⟩
      intro op rhs rest hTokens
      match tokens with
      | [] =>
          cases hTokens
      | [_] =>
          -- The window ends with the end mark.
          cases hTokens
          apply window?_of_barrier
          exact .inr (.inr (isBarrier_endOfInput marker))
      | _ :: _ :: tokens =>
          cases hTokens
          exact hSettled.1 op rhs tokens rfl

/- Settled tokens stay as they are. -/
theorem contract_of_settled
    {tokens : List Token}
    (hSettled : Settled tokens) :
    contract tokens = tokens := by
  fun_induction contract tokens with
  | case1 lhs op rhs rest sum hSum ih =>
      have hNone :=
        (settled_cons_iff.mp hSettled).1 op rhs rest rfl
      rw [hNone] at hSum
      cases hSum
  | case2 lhs op rhs rest hNone ih =>
      rw [ih (settled_cons_iff.mp hSettled).2]
  | case3 tokens hShort =>
      rfl

/-
  A window that does not give way stays like that while the
  tokens after its first one are folded.
-/
theorem window?_contract
    {lhs op rhs : Token}
    {rest : List Token}
    (hNumeric : Numeric (lhs :: op :: rhs :: rest))
    (hNone : window? lhs op rhs = none) :
    ∀ next last more,
      contract (op :: rhs :: rest) = next :: last :: more →
        window? lhs next last = none := by
  intro next last more hFolded
  simp only [Numeric, List.forall_mem_cons] at hNumeric
  rcases hNumeric with ⟨hLeft, hOp, hRight, hRest⟩
  by_cases hPlus : op.kind = .plus
  · -- The plus sign begins no window and stays.
    have hNumber : op.kind ≠ .number := by
      rw [hPlus]
      decide
    have hLater : Numeric (rhs :: rest) :=
      List.forall_mem_cons.mpr ⟨hRight, hRest⟩
    rcases exists_contract_cons hLater with
      ⟨grown, others, hGrown, hGrows, hDigits⟩
    rw [contract_cons_of_ne_number hNumber, hGrown]
      at hFolded
    cases hFolded
    exact
      window?_of_growsTo hNone hGrows hLeft hRight hDigits
  · -- Some other token takes the place of no plus sign.
    have hLater : Numeric (op :: rhs :: rest) :=
      List.forall_mem_cons.mpr
        ⟨hOp, List.forall_mem_cons.mpr ⟨hRight, hRest⟩⟩
    rcases exists_contract_cons hLater with
      ⟨grown, others, hGrown, hGrows, _⟩
    rw [hGrown] at hFolded
    cases hFolded
    apply window?_of_not_isAddition
    intro hAddition
    exact hPlus (hGrows.kind.symm.trans hAddition.2.1)

/- Folding settles tokens whose numbers are runs of digits. -/
theorem settled_contract
    {tokens : List Token}
    (hNumeric : Numeric tokens) :
    Settled (contract tokens) := by
  fun_induction contract tokens with
  | case1 lhs op rhs rest sum hSum ih =>
      have hStep :
          Contracts (lhs :: op :: rhs :: rest)
            (sum :: rest) :=
        @Contracts.window [] rest lhs op rhs sum hSum
      exact ih (hStep.numeric hNumeric)
  | case2 lhs op rhs rest hNone ih =>
      rw [settled_cons_iff]
      exact
        ⟨window?_contract hNumeric hNone,
          ih (List.forall_mem_cons.mp hNumeric).2⟩
  | case3 tokens hShort =>
      exact settled_of_length (length_lt_of_short hShort)

/- A number with a sign can bring a sum back in bounds. -/
example :
    let number (text : String) : Token :=
      ⟨⟨.number, text⟩, ⟨0, 0⟩⟩
    let plus : Token := ⟨⟨.plus, "+"⟩, ⟨0, 0⟩⟩
    let tokens :=
      [number "9223372036854775807", plus, number "1", plus,
        number "-5"]
    contract (contract tokens) ≠ contract tokens := by
  decide +kernel

end Token

end IntDecl

------------------------------------------------------------
-- Settled Sequences
------------------------------------------------------------

namespace IntDecl

namespace TokenSequence

/- The numbers of a source are runs of digits. -/
theorem numeric_ofSource
    (src : String) :
    Token.Numeric (ofSource src).body := by
  intro token hMem
  exact
    Token.isNumeric_of_isValid
      (TokenStream.isValid_of_mem_remaining _ token hMem)

/- A sequence whose tokens are settled is folded already. -/
theorem fold_eq_self
    {ts : TokenSequence}
    (hSettled : Token.Settled ts.body) :
    ts.fold = ts := by
  apply eq_of_body
  · rw [body_fold, Token.contract_of_settled hSettled]
  · rfl

/- Folding settles a sequence with runs of digits. -/
theorem settled_body_fold
    {ts : TokenSequence}
    (hNumeric : Token.Numeric ts.body) :
    Token.Settled ts.fold.body := by
  rw [body_fold]
  exact Token.settled_contract hNumeric

/-
  If all numbers of a sequence are runs of digits, as they are
  in every source, then no window of the folded sequence gives
  way, and to fold it again changes nothing.
-/
theorem settled_fold :
    (∀ ts : TokenSequence, Token.Numeric ts.body →
        Token.Settled ts.fold.tokens ∧
          ts.fold.fold = ts.fold) ∧
      ∀ src, Token.Numeric (ofSource src).body := by
  refine ⟨?_, numeric_ofSource⟩
  intro ts hNumeric
  have hSettled := settled_body_fold hNumeric
  exact
    ⟨hSettled.concat_endOfInput ts.fold.marker,
      fold_eq_self hSettled⟩

/- A window that is passed before its last number grows. -/
theorem settled_fold_of_overflow :
    let ts := ofSource "9223372036854775807 + 1 + 1 * 007"
    Token.Numeric ts.body ∧ ts.fold ≠ ts ∧
      Token.Settled ts.fold.tokens ∧
      ts.fold.fold = ts.fold := by
  intro ts
  have hNumeric : Token.Numeric ts.body :=
    settled_fold.2 _
  exact
    ⟨hNumeric, by decide +kernel,
      settled_fold.1 ts hNumeric⟩

end TokenSequence

end IntDecl
