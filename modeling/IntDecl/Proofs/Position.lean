import IntDecl.Parser.Basic

/-
  This file relates the positions of a parser to the kinds of
  the tokens ahead of it.

  Key definitions include:
    * `Parser.kinds`
    * `Parser.skip`
    * `Parser.ofKinds`

  Key theorems include:
    * `Parser.peek_of_prefix_kinds`
    * `Parser.append_prefix_kinds_iff`
    * `Parser.skip_before`
    * `Parser.kinds_before`
-/

------------------------------------------------------------
-- Kinds Ahead
------------------------------------------------------------

namespace IntDecl

namespace Parser

/- The kinds of the tokens ahead, without the end mark. -/
def kinds (p : Parser) : List TokenKind :=
  Token.kinds p.ahead

/- The parser some tokens later. The end mark is not passed. -/
def skip : Nat → Parser → Parser
| 0, p => p
| n + 1, p => skip n p.advance

@[simp] theorem skip_zero
    (p : Parser) :
    p.skip 0 = p := rfl

@[simp] theorem skip_succ
    (n : Nat)
    (p : Parser) :
    p.skip (n + 1) = p.advance.skip n := rfl

/- Tokens can be skipped in two parts. -/
theorem skip_add
    (m n : Nat)
    (p : Parser) :
    p.skip (m + n) = (p.skip m).skip n := by
  induction m generalizing p with
  | zero =>
      simp
  | succ m ih =>
      rw [Nat.succ_add]
      exact ih p.advance

/- The kind of the next token is the first of those ahead. -/
theorem kind_peek
    (p : Parser) :
    p.peek.kind = p.kinds.headD .endOfInput := by
  unfold peek kinds Token.kinds
  cases p.ahead with
  | nil =>
      rfl
  | cons token rest =>
      rfl

/- Passing a token takes its kind from those ahead. -/
theorem kinds_advance
    (p : Parser) :
    p.advance.kinds = p.kinds.tail := by
  unfold advance kinds Token.kinds
  cases hAhead : p.ahead with
  | nil =>
      simp [hAhead]
  | cons token rest =>
      rfl

/- Skipping tokens drops their kinds from those ahead. -/
theorem kinds_skip
    (n : Nat)
    (p : Parser) :
    (p.skip n).kinds = p.kinds.drop n := by
  induction n generalizing p with
  | zero =>
      rfl
  | succ n ih =>
      rw [skip_succ, ih, kinds_advance, List.drop_tail]

/- A kind that is known to come next is seen and passed. -/
theorem peek_of_prefix_kinds
    {p : Parser}
    {kind : TokenKind}
    {kinds : List TokenKind}
    (hPrefix : kind :: kinds <+: p.kinds) :
    p.peek.kind = kind ∧ kinds <+: p.advance.kinds := by
  rw [kind_peek, kinds_advance]
  rcases hPrefix with ⟨rest, hKinds⟩
  rw [← hKinds]
  exact ⟨rfl, List.prefix_append kinds rest⟩

/- A kind that is seen comes next, the end mark excepted. -/
theorem cons_prefix_of_peek
    {p : Parser}
    {kinds : List TokenKind}
    (hKind : p.peek.kind ≠ .endOfInput)
    (hPrefix : kinds <+: p.advance.kinds) :
    p.peek.kind :: kinds <+: p.kinds := by
  rw [kinds_advance] at hPrefix
  rw [kind_peek] at hKind ⊢
  cases hAhead : p.kinds with
  | nil =>
      simp [hAhead] at hKind
  | cons kind rest =>
      rw [hAhead] at hPrefix
      exact List.cons_prefix_cons.mpr ⟨rfl, hPrefix⟩

/- Kinds that come next come one part after the other. -/
theorem append_prefix_kinds_iff
    {p : Parser}
    {first second : List TokenKind} :
    first ++ second <+: p.kinds ↔
      first <+: p.kinds ∧
        second <+: (p.skip first.length).kinds := by
  rw [kinds_skip]
  constructor
  · intro hBoth
    rcases hBoth with ⟨rest, hKinds⟩
    rw [← hKinds, List.append_assoc, List.drop_left]
    exact ⟨List.prefix_append _ _, List.prefix_append _ _⟩
  · intro hParts
    rcases hParts with ⟨⟨rest, hKinds⟩, hSecond⟩
    rw [← hKinds, List.drop_left] at hSecond
    rw [← hKinds]
    exact (List.prefix_append_right_inj first).mpr hSecond

/- A parser before tokens of given kinds. -/
def ofKinds (kinds : List TokenKind) : Parser where
  ahead := kinds.map fun kind => ⟨⟨kind, ""⟩, ⟨0, 0⟩⟩
  marker := ⟨0, 0⟩
  cursor := 0

/- Tokens of the given kinds are ahead. -/
theorem kinds_ofKinds
    (kinds : List TokenKind) :
    (ofKinds kinds).kinds = kinds := by
  simp [Parser.kinds, ofKinds, Token.kinds,
    Function.comp_def]

end Parser

end IntDecl

------------------------------------------------------------
-- Positions In Sequences
------------------------------------------------------------

namespace IntDecl

namespace Parser

/- The kinds ahead of a position of a sequence. -/
theorem kinds_before
    (ts : TokenSequence)
    (cursor : Nat) :
    (before ts cursor).kinds =
      (Token.kinds ts.body).drop cursor := by
  simp [kinds, before, Token.kinds]

/- Tokens of a sequence are skipped up to the end mark. -/
theorem skip_before
    {ts : TokenSequence}
    {cursor n : Nat}
    (hBody : cursor + n ≤ ts.body.length) :
    (before ts cursor).skip n = before ts (cursor + n) := by
  induction n generalizing cursor with
  | zero =>
      rfl
  | succ n ih =>
      rw [skip_succ, advance_before (by omega),
        ih (by omega)]
      congr 1
      omega

end Parser

namespace TokenSequence

/- The kinds of a sequence end with that of the end mark. -/
theorem kinds_eq
    (ts : TokenSequence) :
    ts.kinds = Token.kinds ts.body ++ [.endOfInput] := by
  simp [kinds, tokens, Token.kinds, Token.endOfInput]

end TokenSequence

end IntDecl
