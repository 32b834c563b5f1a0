import Mathlib.Data.List.Forall2
import IntDecl.Proofs.Contraction
import IntDecl.Proofs.Logging

/-
  This file matches the warnings of folding with what folding
  leaves.

  A window that does not give way is reported when it is
  passed. While folding goes on behind it, its last number
  may give way to a sum, but two numbers with a plus sign
  between them stay there; and no others come up where no
  window was refused. So there is one warning for each
  addition that is left, in order. Each window that does give
  way is reported too, and takes two tokens.

  Key definitions include:
    * `Token.IsAdditionAt`
    * `Token.additions`
    * `Entry.ofSeverity`
    * `Entry.WarnsOf`
    * `Folded.entries`
    * `Folded.Matched`

  Key theorems include:
    * `Token.additions_cons`
    * `Token.isAdditionAt_contract`
    * `Folded.matched_ofTokens`
    * `Folded.length_tokens`
    * `TokenSequence.warnings_foldLog`
-/

------------------------------------------------------------
-- Places Of Additions
------------------------------------------------------------

namespace IntDecl

namespace Token

/- A number, a plus sign and a number from a position on. -/
def IsAdditionAt (tokens : List Token) (j : Nat) : Prop :=
  (kinds tokens)[j]? = some .number ∧
    (kinds tokens)[j + 1]? = some .plus ∧
    (kinds tokens)[j + 2]? = some .number

instance (tokens : List Token) (j : Nat) :
    Decidable (IsAdditionAt tokens j) := by
  unfold IsAdditionAt
  infer_instance

/- The positions of the additions in order. -/
def additions (tokens : List Token) : List Nat :=
  (List.range tokens.length).filter (IsAdditionAt tokens)

variable {tokens : List Token}

/- Three tokens at the front are an addition by their kinds. -/
theorem isAdditionAt_zero
    (lhs op rhs : Token)
    (rest : List Token) :
    IsAdditionAt (lhs :: op :: rhs :: rest) 0 ↔
      lhs.IsAddition op rhs := by
  simp [IsAdditionAt, IsAddition, kinds]

/- The additions behind the first token come later by one. -/
theorem additions_cons
    (lhs : Token)
    (tokens : List Token) :
    additions (lhs :: tokens) =
      (if IsAdditionAt (lhs :: tokens) 0 then [0] else []) ++
        (additions tokens).map (· + 1) := by
  have hLater :
      (fun j => decide (IsAdditionAt (lhs :: tokens) j)) ∘
          Nat.succ =
        fun j => decide (IsAdditionAt tokens j) := by
    funext j
    rfl
  rw [additions, List.length_cons, List.range_succ_eq_map,
    List.filter_cons, List.filter_map, hLater]
  by_cases hFirst : IsAdditionAt (lhs :: tokens) 0
  · rw [if_pos hFirst, if_pos (decide_eq_true hFirst)]
    rfl
  · rw [if_neg hFirst, decide_eq_false hFirst]
    rfl

/- An addition takes three tokens. -/
theorem IsAdditionAt.lt_length
    {j : Nat}
    (hAddition : IsAdditionAt tokens j) :
    j + 2 < tokens.length := by
  rcases List.getElem?_eq_some_iff.mp hAddition.2.2 with
    ⟨hLt, _⟩
  rw [kinds, List.length_map] at hLt
  exact hLt

/- Less than three tokens hold no addition. -/
theorem additions_of_length
    (hLength : tokens.length < 3) :
    additions tokens = [] := by
  rw [additions, List.filter_eq_nil_iff]
  intro j _ hDecided
  have hAddition : IsAdditionAt tokens j :=
    of_decide_eq_true hDecided
  have hLt := hAddition.lt_length
  omega

/- An end mark is part of no addition. -/
theorem isAdditionAt_concat_endOfInput
    (tokens : List Token)
    (marker : Span)
    (j : Nat) :
    IsAdditionAt (tokens ++ [endOfInput marker]) j ↔
      IsAdditionAt tokens j := by
  have hKind :
      ∀ (k : TokenKind) (i : Nat), k ≠ .endOfInput →
        ((kinds (tokens ++ [endOfInput marker]))[i]? =
            some k ↔
          (kinds tokens)[i]? = some k) := by
    intro k i hOther
    simp only [kinds, List.map_append, List.map_singleton]
    grind [endOfInput]
  rw [IsAdditionAt, IsAdditionAt, hKind _ _ (by decide),
    hKind _ _ (by decide), hKind _ _ (by decide)]

/- An end mark behind some tokens adds no addition. -/
theorem additions_concat_endOfInput
    (tokens : List Token)
    (marker : Span) :
    additions (tokens ++ [endOfInput marker]) =
      additions tokens := by
  have hSame :
      (fun j => decide (IsAdditionAt
          (tokens ++ [endOfInput marker]) j)) =
        fun j => decide (IsAdditionAt tokens j) := by
    funext j
    rw [decide_eq_decide, isAdditionAt_concat_endOfInput]
  have hBehind : ¬ IsAdditionAt tokens tokens.length := by
    intro hAddition
    have hLt := hAddition.lt_length
    omega
  rw [additions, hSame, List.length_append,
    List.length_singleton, List.range_succ,
    List.filter_append, List.filter_singleton,
    decide_eq_false hBehind]
  exact List.append_nil _

end Token

end IntDecl

------------------------------------------------------------
-- Additions That Stay
------------------------------------------------------------

namespace IntDecl

namespace Token

/- Folding keeps the kind of the first token. -/
theorem exists_kind_contract_cons
    (token : Token)
    (tokens : List Token) :
    ∃ last rest, contract (token :: tokens) = last :: rest ∧
      last.kind = token.kind := by
  have hStep :
      ∀ first second, Contracts first second →
        (∃ last rest, first = last :: rest ∧
            last.kind = token.kind) →
          ∃ last rest, second = last :: rest ∧
            last.kind = token.kind := by
    intro first second hContracts hFirst
    rcases hContracts with @⟨before, after, lhs, op, rhs, sum,
      hWindow⟩
    rcases hFirst with ⟨last, rest, hTokens, hKind⟩
    cases before with
    | nil =>
        cases hTokens
        have hAddition := (window?_eq_some_iff.mp hWindow).1
        refine ⟨sum, after, rfl, ?_⟩
        rw [(eq_of_window? hWindow).1, ← hKind, hAddition.1]
    | cons head before =>
        cases hTokens
        exact ⟨last, _, rfl, hKind⟩
  exact contract_induction hStep ⟨token, tokens, rfl, rfl⟩

/-
  Folding behind a token neither takes the rest of an addition
  away from it nor completes one.
-/
theorem isAdditionAt_contract
    (lhs op rhs : Token)
    (rest : List Token) :
    IsAdditionAt (lhs :: contract (op :: rhs :: rest)) 0 ↔
      lhs.IsAddition op rhs := by
  by_cases hPlus : op.kind = .plus
  · have hNumber : op.kind ≠ .number := by
      rw [hPlus]
      decide
    rcases exists_kind_contract_cons rhs rest with
      ⟨last, more, hLast, hKind⟩
    rw [contract_cons_of_ne_number hNumber, hLast,
      isAdditionAt_zero, IsAddition, IsAddition, hKind]
  · rcases exists_kind_contract_cons op (rhs :: rest) with
      ⟨last, more, hLast, hKind⟩
    rw [hLast]
    constructor
    · intro hAddition
      have hSecond : some last.kind = some .plus :=
        hAddition.2.1
      rw [hKind, Option.some_inj] at hSecond
      exact absurd hSecond hPlus
    · intro hAddition
      exact absurd hAddition.2.1 hPlus

end Token

end IntDecl

------------------------------------------------------------
-- Entries By Severity
------------------------------------------------------------

namespace IntDecl

namespace Entry

/- The entries that matter exactly so much, in order. -/
def ofSeverity
    (severity : Severity)
    (entries : List Entry) :
    List Entry :=
  entries.filter fun entry => entry.severity = severity

/-
  An entry warns of an addition at a position if it says that
  the number there can not be folded with one behind it.
-/
def WarnsOf
    (entry : Entry)
    (tokens : List Token)
    (j : Nat) :
    Prop :=
  ∃ lhs, tokens[j]? = some lhs ∧
    ∃ rhs, entry = .fold (.refused lhs.text rhs)

/- An entry comes first among those of its own severity. -/
theorem ofSeverity_cons
    (severity : Severity)
    (entry : Entry)
    (entries : List Entry) :
    ofSeverity severity (entry :: entries) =
      if entry.severity = severity then
        entry :: ofSeverity severity entries
      else
        ofSeverity severity entries := by
  simp only [ofSeverity, List.filter_cons, decide_eq_true_iff]

/- With a token in front, a warning is of one place later. -/
theorem warnsOf_cons_succ
    (entry : Entry)
    (token : Token)
    (tokens : List Token)
    (j : Nat) :
    entry.WarnsOf (token :: tokens) (j + 1) ↔
      entry.WarnsOf tokens j :=
  Iff.rfl

/- The first token is warned of by its text. -/
theorem warnsOf_refused
    (lhs : Token)
    (tokens : List Token)
    (rhs : String) :
    (fold (.refused lhs.text rhs)).WarnsOf
      (lhs :: tokens) 0 :=
  ⟨lhs, rfl, rhs, rfl⟩

/- Tokens behind the others change no warning of those. -/
theorem WarnsOf.append
    {entry : Entry}
    {tokens : List Token}
    {j : Nat}
    (hWarns : entry.WarnsOf tokens j)
    (others : List Token) :
    entry.WarnsOf (tokens ++ others) j := by
  rcases hWarns with ⟨lhs, hToken, hRefused⟩
  rcases List.getElem?_eq_some_iff.mp hToken with ⟨hLt, _⟩
  refine ⟨lhs, ?_, hRefused⟩
  rw [List.getElem?_append_left hLt, hToken]

end Entry

end IntDecl

------------------------------------------------------------
-- Entries Of Folding
------------------------------------------------------------

namespace IntDecl

namespace Folded

/- The entries for the events of folding, in order. -/
def entries (f : Folded) : List Entry :=
  f.events.map .fold

variable (f : Folded)

/- A token that stays is no entry. -/
@[simp] theorem entries_keeping
    (token : Token) :
    (f.keeping token).entries = f.entries :=
  rfl

/- The event before the others has the first entry. -/
@[simp] theorem entries_preceded
    (event : FoldEvent) :
    (f.preceded event).entries = .fold event :: f.entries :=
  rfl

/- A token that stays comes first among the others. -/
@[simp] theorem tokens_keeping
    (token : Token) :
    (f.keeping token).tokens = token :: f.tokens :=
  rfl

/- An event leaves the tokens as they are. -/
@[simp] theorem tokens_preceded
    (event : FoldEvent) :
    (f.preceded event).tokens = f.tokens :=
  rfl

/- What is logged for debugging is each window that gave way. -/
theorem exists_folded_of_mem :
    ∀ entry ∈ Entry.ofSeverity .debug f.entries,
      ∃ position sum,
        entry = .fold (.folded position sum) := by
  intro entry hMem
  rcases List.mem_filter.mp hMem with ⟨hEntry, hSeverity⟩
  rcases List.mem_map.mp hEntry with ⟨event, _, rfl⟩
  cases event with
  | folded position sum =>
      exact ⟨position, sum, rfl⟩
  | refused lhs rhs =>
      exact nomatch hSeverity

end Folded

end IntDecl

------------------------------------------------------------
-- One Warning For Each Addition
------------------------------------------------------------

namespace IntDecl

namespace Folded

/- The warnings are of the additions, one by one in order. -/
def Matched (f : Folded) : Prop :=
  List.Forall₂ (fun entry j => entry.WarnsOf f.tokens j)
    (Entry.ofSeverity .warn f.entries)
    (Token.additions f.tokens)

variable {f : Folded} {lhs : Token}

/- The warnings of a matched part, behind one more token. -/
theorem Matched.forall₂_warnsOf_cons
    (hMatched : f.Matched)
    (lhs : Token) :
    List.Forall₂
      (fun entry j => entry.WarnsOf (lhs :: f.tokens) j)
      (Entry.ofSeverity .warn f.entries)
      ((Token.additions f.tokens).map (· + 1)) := by
  rw [List.forall₂_map_right_iff]
  exact hMatched.imp fun entry j hWarns =>
    (entry.warnsOf_cons_succ lhs f.tokens j).mpr hWarns

/- A token that begins no addition stays without a warning. -/
theorem Matched.keeping
    (hMatched : f.Matched)
    (hOther : ¬ Token.IsAdditionAt (lhs :: f.tokens) 0) :
    (f.keeping lhs).Matched := by
  rw [Matched, entries_keeping, tokens_keeping,
    Token.additions_cons, if_neg hOther, List.nil_append]
  exact hMatched.forall₂_warnsOf_cons lhs

/- A token that begins an addition is refused with one. -/
theorem Matched.refused
    (hMatched : f.Matched)
    (hAddition : Token.IsAdditionAt (lhs :: f.tokens) 0)
    (rhs : String) :
    ((f.keeping lhs).preceded
      (.refused lhs.text rhs)).Matched := by
  rw [Matched, entries_preceded, tokens_preceded,
    entries_keeping, tokens_keeping, Entry.ofSeverity_cons,
    Token.additions_cons, if_pos hAddition]
  exact
    List.Forall₂.cons
      (Entry.warnsOf_refused lhs f.tokens rhs)
      (hMatched.forall₂_warnsOf_cons lhs)

/- A window that gives way is no warning. -/
theorem Matched.folded
    (hMatched : f.Matched)
    (position : Nat)
    (sum : Token) :
    (f.preceded (.folded position sum)).Matched := by
  rw [Matched, entries_preceded, tokens_preceded,
    Entry.ofSeverity_cons]
  exact hMatched

/-
  Folding warns once of each addition that it leaves. What
  stays behind a refused window is an addition again, and
  what stays behind any other token is none.
-/
theorem matched_ofTokens
    (position : Nat)
    (tokens : List Token) :
    (ofTokens position tokens).Matched := by
  fun_induction ofTokens position tokens with
  | case1 position lhs op rhs rest hAddition sum hSum ih =>
      exact ih.folded position sum
  | case2 position lhs op rhs rest hAddition hSum ih =>
      apply ih.refused
      rw [tokens_ofTokens, Token.isAdditionAt_contract]
      exact hAddition
  | case3 position lhs op rhs rest hAddition ih =>
      apply ih.keeping
      rw [tokens_ofTokens, Token.isAdditionAt_contract]
      exact hAddition
  | case4 position tokens hShort =>
      have hNone : Token.additions tokens = [] :=
        Token.additions_of_length
          (Token.length_lt_of_short hShort)
      simp only [Matched, hNone]
      exact List.Forall₂.nil

/- The right number of a warning may give way behind it. -/
example :
    let number (text : String) : Token :=
      ⟨⟨.number, text⟩, ⟨0, 0⟩⟩
    let plus : Token := ⟨⟨.plus, "+"⟩, ⟨0, 0⟩⟩
    let f :=
      ofTokens 0
        [number "9223372036854775807", plus, number "1",
          plus, number "2"]
    Entry.ofSeverity .warn f.entries =
        [.fold (.refused "9223372036854775807" "1")] ∧
      f.tokens.map Token.toLexeme =
        [⟨.number, "9223372036854775807"⟩, ⟨.plus, "+"⟩,
          ⟨.number, "3"⟩] := by
  decide +kernel

/- Each window that gives way takes two tokens. -/
theorem length_tokens
    (position : Nat)
    (tokens : List Token) :
    let f := ofTokens position tokens
    tokens.length =
      f.tokens.length +
        2 * (Entry.ofSeverity .debug f.entries).length := by
  fun_induction ofTokens position tokens with
  | case1 position lhs op rhs rest hAddition sum hSum ih =>
      simp only [entries_preceded, tokens_preceded,
        Entry.ofSeverity_cons, Entry.severity, if_true,
        List.length_cons] at ih ⊢
      omega
  | case2 position lhs op rhs rest hAddition hSum ih =>
      simp only [entries_preceded, tokens_preceded,
        entries_keeping, tokens_keeping,
        Entry.ofSeverity_cons, Entry.severity, reduceCtorEq,
        if_false, List.length_cons] at ih ⊢
      omega
  | case3 position lhs op rhs rest hAddition ih =>
      simp only [entries_keeping, tokens_keeping,
        List.length_cons] at ih ⊢
      omega
  | case4 position tokens hShort =>
      rfl

end Folded

end IntDecl

------------------------------------------------------------
-- Warnings Of A Sequence
------------------------------------------------------------

namespace IntDecl

namespace TokenSequence

/- The entries that are logged while a sequence is folded. -/
theorem map_entry_foldLog
    (ts : TokenSequence) :
    ts.foldLog.map Record.entry = ts.folded.entries := by
  rw [foldLog, Record.map_entry_enclose,
    Record.map_entry_ofEntries]
  rfl

/-
  Folding a sequence warns once of each addition that it
  leaves, in order and with the text of its left number. The
  other entries say which windows gave way, and there are
  half as many as tokens have gone.
-/
theorem warnings_foldLog
    (ts : TokenSequence) :
    let entries := ts.foldLog.map Record.entry
    List.Forall₂
        (fun entry j => entry.WarnsOf ts.fold.tokens j)
        (Entry.ofSeverity .warn entries)
        (Token.additions ts.fold.tokens) ∧
      (∀ entry ∈ Entry.ofSeverity .debug entries,
        ∃ position sum,
          entry = .fold (.folded position sum)) ∧
      ts.size =
        ts.fold.size +
          2 * (Entry.ofSeverity .debug entries).length := by
  simp only [map_entry_foldLog]
  refine ⟨?_, ts.folded.exists_folded_of_mem, ?_⟩
  · have hBody : ts.folded.Matched :=
      Folded.matched_ofTokens 0 ts.body
    rw [tokens, Token.additions_concat_endOfInput]
    exact hBody.imp fun entry j hWarns => hWarns.append _
  · have hBody := Folded.length_tokens 0 ts.body
    rw [size_eq, size_eq]
    change ts.body.length + 1 =
      ts.folded.tokens.length + 1 + 2 * _
    rw [hBody]
    exact Nat.add_right_comm _ _ _

end TokenSequence

end IntDecl
