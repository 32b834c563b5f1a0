import IntDecl.Proofs.Contraction
import IntDecl.Proofs.Tiling

/-
  This file shows that no edit reaches the end mark.

  A sequence is edited by replacing windows of it, one by one
  or all that folding replaces. Folding in place looks at
  windows that end with the end mark, but an end mark is part
  of no addition, so none of its replacements is refused.
  They lead to the folded sequence, and what the loop logs on
  the way are the events of folding.

  Key definitions include:
    * `Token.examine`
    * `TokenSequence.foldFrom`
    * `TokenSequence.foldInPlace`
    * `TokenSequence.FoldsBehind`
    * `Edit`
    * `TokenSequence.after`
    * `TokenSequence.afterAll`
    * `TokenSequence.EndsWith`
    * `TokenSequence.BuiltWith`

  Key theorems include:
    * `TokenSequence.exists_replaceWindow_eq_ok`
    * `TokenSequence.foldsBehind_ofTokens`
    * `TokenSequence.foldFrom_zero`
    * `TokenSequence.foldInPlace_eq`
    * `TokenSequence.marker_afterAll`
    * `TokenSequence.endsWith_afterAll`
-/

------------------------------------------------------------
-- Replacing Windows
------------------------------------------------------------

namespace IntDecl

namespace TokenSequence

/-
  One token may take the place of a window that is not empty
  and ends before the end mark, if it is no end mark.
-/
def Replaceable
    (ts : TokenSequence)
    (first last : Nat)
    (token : Token) :
    Prop :=
  first < last ∧ last < ts.size ∧ token.kind ≠ .endOfInput

instance
    (ts : TokenSequence)
    (first last : Nat)
    (token : Token) :
    Decidable (ts.Replaceable first last token) := by
  unfold Replaceable
  infer_instance

/- A replacement keeps what stands around its window. -/
theorem exists_replaceWindow_eq_ok
    {ts : TokenSequence}
    {first last : Nat}
    {token : Token}
    (hReplaceable : ts.Replaceable first last token) :
    ∃ us, ts.replaceWindow first last token = .ok us ∧
      us.body =
        ts.body.take first ++ token :: ts.body.drop last ∧
      us.marker = ts.marker := by
  rcases hReplaceable with ⟨hFirst, hLast, hToken⟩
  rw [replaceWindow, if_pos ⟨hFirst, hLast⟩, dif_pos hToken]
  exact ⟨_, rfl, rfl, rfl⟩

/- All other replacements are refused. -/
theorem exists_replaceWindow_eq_error
    {ts : TokenSequence}
    {first last : Nat}
    {token : Token}
    (hOther : ¬ ts.Replaceable first last token) :
    ∃ fault,
      ts.replaceWindow first last token = .error fault := by
  unfold replaceWindow
  split
  case isTrue hWindow =>
    have hToken : ¬ token.kind ≠ .endOfInput := by
      intro hToken
      exact hOther ⟨hWindow.1, hWindow.2, hToken⟩
    rw [dif_neg hToken]
    exact ⟨_, rfl⟩
  case isFalse =>
    exact ⟨_, rfl⟩

/- A replacement that is made was allowed. -/
theorem replaceable_of_replaceWindow
    {ts us : TokenSequence}
    {first last : Nat}
    {token : Token}
    (hReplace :
      ts.replaceWindow first last token = .ok us) :
    ts.Replaceable first last token ∧
      us.body =
        ts.body.take first ++ token :: ts.body.drop last ∧
      us.marker = ts.marker := by
  by_cases hReplaceable : ts.Replaceable first last token
  · rcases exists_replaceWindow_eq_ok hReplaceable with
      ⟨vs, hOther, hBody, hMarker⟩
    rw [hReplace] at hOther
    cases hOther
    exact ⟨hReplaceable, hBody, hMarker⟩
  · rcases exists_replaceWindow_eq_error hReplaceable with
      ⟨fault, hError⟩
    rw [hReplace] at hError
    cases hError

/-
  A replacement among all tokens, the end mark included, takes
  place before the end mark.
-/
theorem tokens_of_replaceWindow
    {ts us : TokenSequence}
    {first last : Nat}
    {token : Token}
    (hReplace :
      ts.replaceWindow first last token = .ok us) :
    us.tokens =
      ts.tokens.take first ++
        token :: ts.tokens.drop last := by
  rcases replaceable_of_replaceWindow hReplace with
    ⟨⟨hFirst, hLast, _⟩, hBody, hMarker⟩
  rw [size_eq] at hLast
  rw [tokens, tokens, hBody, hMarker,
    List.take_append_of_le_length (by omega),
    List.drop_append_of_le_length (by omega),
    List.append_assoc, List.cons_append]

/- A replacement leaves one token for its window. -/
theorem size_of_replaceWindow
    {ts us : TokenSequence}
    {first last : Nat}
    {token : Token}
    (hReplace :
      ts.replaceWindow first last token = .ok us) :
    us.size + last = ts.size + first + 1 := by
  rcases replaceable_of_replaceWindow hReplace with
    ⟨⟨hFirst, hLast, _⟩, hBody, _⟩
  rw [size_eq] at hLast
  rw [size_eq, size_eq, hBody, List.length_append,
    List.length_cons, List.length_take, List.length_drop]
  omega

end TokenSequence

end IntDecl

------------------------------------------------------------
-- Folding In Place
------------------------------------------------------------

namespace IntDecl

namespace Token

/-
  What is found in a window: the sum that it gives way to, if
  it is an addition that has one, and a warning, if it is an
  addition that has none.
-/
def examine
    (lhs op rhs : Token) :
    Option Token × List FoldEvent :=
  if lhs.IsAddition op rhs then
    match lhs.sum? rhs with
    | some sum => (some sum, [])
    | none => (none, [.refused lhs.text rhs.text])
  else
    (none, [])

variable {lhs op rhs : Token}

/- A sum is found without a warning. -/
theorem examine_of_sum
    {sum : Token}
    (hAddition : lhs.IsAddition op rhs)
    (hSum : lhs.sum? rhs = some sum) :
    examine lhs op rhs = (some sum, []) := by
  rw [examine, if_pos hAddition, hSum]

/- An addition without a sum is found with a warning. -/
theorem examine_of_refused
    (hAddition : lhs.IsAddition op rhs)
    (hSum : lhs.sum? rhs = none) :
    examine lhs op rhs =
      (none, [.refused lhs.text rhs.text]) := by
  rw [examine, if_pos hAddition, hSum]

/- In any other window nothing is found. -/
theorem examine_of_not_isAddition
    (hOther : ¬ lhs.IsAddition op rhs) :
    examine lhs op rhs = (none, []) :=
  if_neg hOther

end Token

namespace TokenSequence

/- Three tokens from a position on end within a sequence. -/
theorem add_three_le_of_drop
    {ts : TokenSequence}
    {i : Nat}
    {lhs op rhs : Token}
    {rest : List Token}
    (hDrop : ts.tokens.drop i = lhs :: op :: rhs :: rest) :
    i + 3 ≤ ts.size := by
  have hLength := congrArg List.length hDrop
  simp only [List.length_drop, List.length_cons] at hLength
  rw [size]
  omega

/- What the loop below returns, and the events it logs. -/
abbrev Logged :=
  Except Fault TokenSequence × List FoldEvent

/- A result with earlier events. -/
def logged
    (events : List FoldEvent)
    (result : Logged) :
    Logged :=
  (result.1, events ++ result.2)

/-
  Folds a sequence by replacements from a position on and
  logs it. The window of three tokens at the position may end
  with the end mark. Where it gives way to a sum, it is
  examined again.
-/
def foldFrom
    (i : Nat)
    (ts : TokenSequence) :
    Logged :=
  match hDrop : ts.tokens.drop i with
  | lhs :: op :: rhs :: _ =>
      have := add_three_le_of_drop hDrop
      match Token.examine lhs op rhs with
      | (some sum, events) =>
          logged (events ++ [.folded i sum])
            (match hReplace :
                ts.replaceWindow i (i + 3) sum with
            | .ok us =>
                have := size_of_replaceWindow hReplace
                foldFrom i us
            | .error fault => (.error fault, []))
      | (none, events) => logged events (foldFrom (i + 1) ts)
  | _ => (.ok ts, [])
termination_by ts.size - i

/- Folds a sequence by replacements from its start on. -/
def foldInPlace
    (ts : TokenSequence) :
    Except Fault TokenSequence :=
  (foldFrom 0 ts).1

/- A window that gives way is replaced and examined again. -/
theorem foldFrom_of_some
    {ts us : TokenSequence}
    {i : Nat}
    {lhs op rhs sum : Token}
    {rest : List Token}
    {events : List FoldEvent}
    (hDrop : ts.tokens.drop i = lhs :: op :: rhs :: rest)
    (hWindow :
      Token.examine lhs op rhs = (some sum, events))
    (hReplace :
      ts.replaceWindow i (i + 3) sum = .ok us) :
    foldFrom i ts =
      logged (events ++ [.folded i sum]) (foldFrom i us) := by
  rw [foldFrom]
  split
  case h_1 first second third others hOther =>
    rw [hDrop] at hOther
    cases hOther
    simp only [hWindow]
    congr 1
    split
    case h_1 vs hOk =>
      rw [hReplace] at hOk
      cases hOk
      rfl
    case h_2 fault hError =>
      rw [hReplace] at hError
      cases hError
  case h_2 hShort =>
    exact absurd hDrop (hShort lhs op rhs rest)

/- A window that does not give way is passed. -/
theorem foldFrom_of_none
    {ts : TokenSequence}
    {i : Nat}
    {lhs op rhs : Token}
    {rest : List Token}
    {events : List FoldEvent}
    (hDrop : ts.tokens.drop i = lhs :: op :: rhs :: rest)
    (hWindow : Token.examine lhs op rhs = (none, events)) :
    foldFrom i ts =
      logged events (foldFrom (i + 1) ts) := by
  rw [foldFrom]
  split
  case h_1 first second third others hOther =>
    rw [hDrop] at hOther
    cases hOther
    simp only [hWindow]
  case h_2 hShort =>
    exact absurd hDrop (hShort lhs op rhs rest)

/- Less than three tokens hold no window. -/
theorem foldFrom_of_short
    {ts : TokenSequence}
    {i : Nat}
    (hShort : ts.size < i + 3) :
    foldFrom i ts = (.ok ts, []) := by
  rw [foldFrom]
  split
  case h_1 first second third others hDrop =>
    have hLong := add_three_le_of_drop hDrop
    omega
  case h_2 =>
    rfl

/- The tokens behind those that have been passed. -/
theorem drop_tokens
    {before rest : List Token}
    {ts : TokenSequence}
    (hBody : ts.body = before ++ rest) :
    ts.tokens.drop before.length =
      rest ++ [Token.endOfInput ts.marker] := by
  rw [tokens, hBody, List.append_assoc, List.drop_left]

/-
  A window that ends with the end mark is passed without a
  word, and so are the tokens in it.
-/
theorem foldFrom_of_length
    {before rest : List Token}
    {ts : TokenSequence}
    (hBody : ts.body = before ++ rest)
    (hLength : rest.length < 3) :
    foldFrom before.length ts = (.ok ts, []) := by
  have hDrop := drop_tokens hBody
  have hSize : ts.size = before.length + rest.length + 1 := by
    rw [size_eq, hBody, List.length_append]
  match rest with
  | [] | [_] =>
      apply foldFrom_of_short
      simp only [hSize, List.length_cons, List.length_nil]
      omega
  | [lhs, op] =>
      have hOther :
          ¬ lhs.IsAddition op (Token.endOfInput ts.marker) := by
        intro hAddition
        cases hAddition.2.2
      rw [foldFrom_of_none hDrop
          (Token.examine_of_not_isAddition hOther),
        foldFrom_of_short]
      · rfl
      · simp only [hSize, List.length_cons, List.length_nil]
        omega

/-
  From behind some tokens on, folding in place leaves those
  tokens as they are and the tokens that are given after
  them, and logs the events that are given.
-/
def FoldsBehind
    (ts : TokenSequence)
    (before : List Token)
    (f : Folded) :
    Prop :=
  ∃ us, foldFrom before.length ts = (.ok us, f.events) ∧
    us.body = before ++ f.tokens ∧ us.marker = ts.marker

variable {ts : TokenSequence}
variable {before rest : List Token}
variable {lhs op rhs sum : Token}
variable {f : Folded}

/- A window that is passed leaves its first token. -/
theorem FoldsBehind.passed
    {events : List FoldEvent}
    (hBody : ts.body = before ++ lhs :: op :: rhs :: rest)
    (hWindow : Token.examine lhs op rhs = (none, events))
    (hLater : ts.FoldsBehind (before ++ [lhs]) f) :
    ts.FoldsBehind before
      ⟨lhs :: f.tokens, events ++ f.events⟩ := by
  rcases hLater with ⟨us, hFolded, hLeft, hMarker⟩
  rw [List.length_append] at hFolded
  refine ⟨us, ?_, ?_, hMarker⟩
  · rw [foldFrom_of_none (drop_tokens hBody) hWindow]
    exact congrArg (logged events) hFolded
  · rw [hLeft, List.append_assoc]
    rfl

/- A window that gives way is never refused its place. -/
theorem FoldsBehind.replaced
    (hBody : ts.body = before ++ lhs :: op :: rhs :: rest)
    (hAddition : lhs.IsAddition op rhs)
    (hSum : lhs.sum? rhs = some sum)
    (hLater :
      ∀ us : TokenSequence, us.body = before ++ sum :: rest →
        us.FoldsBehind before f) :
    ts.FoldsBehind before
      (f.preceded (.folded before.length sum)) := by
  have hReplaceable :
      ts.Replaceable before.length (before.length + 3) sum := by
    refine ⟨by omega, ?_, ?_⟩
    · rw [size_eq, hBody]
      simp only [List.length_append, List.length_cons]
      omega
    · rw [Token.kind_of_sum? hSum]
      decide
  rcases exists_replaceWindow_eq_ok hReplaceable with
    ⟨us, hReplace, hSpliced, hMarker⟩
  have hAfter : us.body = before ++ sum :: rest := by
    rw [hSpliced, hBody, List.take_left, ← List.drop_drop,
      List.drop_left]
    rfl
  rcases hLater us hAfter with ⟨vs, hFolded, hLeft, hLast⟩
  refine ⟨vs, ?_, hLeft, hLast.trans hMarker⟩
  rw [foldFrom_of_some (drop_tokens hBody)
    (Token.examine_of_sum hAddition hSum) hReplace, hFolded]
  rfl

/-
  Behind tokens that have been passed, folding in place makes
  all its replacements. It leaves what folding leaves of the
  tokens ahead and logs what folding reports of them.
-/
theorem foldsBehind_ofTokens
    (hBody : ts.body = before ++ rest) :
    ts.FoldsBehind before
      (Folded.ofTokens before.length rest) := by
  generalize hPosition : before.length = position
  fun_induction Folded.ofTokens position rest
    generalizing before ts with
  | case1 position lhs op rhs rest hAddition sum hSum ih =>
      subst hPosition
      exact .replaced hBody hAddition hSum
        fun us hAfter => ih hAfter rfl
  | case2 position lhs op rhs rest hAddition hSum ih =>
      subst hPosition
      exact .passed hBody
        (Token.examine_of_refused hAddition hSum)
        (ih (hBody.trans (List.append_cons before lhs _))
          List.length_append)
  | case3 position lhs op rhs rest hOther ih =>
      subst hPosition
      exact .passed hBody
        (Token.examine_of_not_isAddition hOther)
        (ih (hBody.trans (List.append_cons before lhs _))
          List.length_append)
  | case4 position tokens hShort =>
      have hLength := Token.length_lt_of_short hShort
      subst hPosition
      exact
        ⟨ts, foldFrom_of_length hBody hLength, hBody, rfl⟩

/-
  Folding in place is folding: no replacement is refused, and
  the loop logs the events of folding in their order.
-/
theorem foldFrom_zero
    (ts : TokenSequence) :
    foldFrom 0 ts = (.ok ts.fold, ts.folded.events) := by
  have hBody : ts.body = [] ++ ts.body := rfl
  rcases foldsBehind_ofTokens hBody with
    ⟨us, hFolded, hLeft, hMarker⟩
  have hSame : us = ts.fold := eq_of_body hLeft hMarker
  rw [← hSame]
  exact hFolded

/- Folding in place is never refused. -/
theorem foldInPlace_eq
    (ts : TokenSequence) :
    ts.foldInPlace = .ok ts.fold :=
  congrArg Prod.fst ts.foldFrom_zero

end TokenSequence

end IntDecl

------------------------------------------------------------
-- Edits
------------------------------------------------------------

namespace IntDecl

/-
  A change of a sequence in place: one token in the place of a
  window, or all sums in the place of their additions.
-/
inductive Edit where
| replace (first last : Nat) (token : Token)
| fold
deriving DecidableEq, Repr

namespace TokenSequence

/- The result of an edit, which may be refused. -/
def edit
    (ts : TokenSequence) :
    Edit → Except Fault TokenSequence
| .replace first last token =>
    ts.replaceWindow first last token
| .fold => ts.foldInPlace

/- A sequence after an edit. One that is refused does nothing. -/
def after
    (ts : TokenSequence)
    (edit : Edit) :
    TokenSequence :=
  match ts.edit edit with
  | .ok us => us
  | .error _ => ts

/- A sequence after some edits, one after the other. -/
def afterAll
    (ts : TokenSequence)
    (edits : List Edit) :
    TokenSequence :=
  edits.foldl after ts

/- No edit moves the end mark. -/
theorem marker_after
    (ts : TokenSequence)
    (edit : Edit) :
    (ts.after edit).marker = ts.marker := by
  unfold after
  split
  case h_1 us hEdit =>
    cases edit with
    | replace first last token =>
        exact (replaceable_of_replaceWindow hEdit).2.2
    | fold =>
        rw [TokenSequence.edit, foldInPlace_eq] at hEdit
        cases hEdit
        rfl
  case h_2 =>
    rfl

/- No edits move the end mark. -/
theorem marker_afterAll
    (ts : TokenSequence)
    (edits : List Edit) :
    (ts.afterAll edits).marker = ts.marker := by
  induction edits generalizing ts with
  | nil =>
      rfl
  | cons edit edits ih =>
      exact (ih (ts.after edit)).trans (ts.marker_after edit)

end TokenSequence

end IntDecl

------------------------------------------------------------
-- Sequences And Their End Marks
------------------------------------------------------------

namespace IntDecl

namespace TokenSequence

/-
  The end mark in a place is the last token of a sequence and
  the only one of its kind.
-/
def EndsWith
    (ts : TokenSequence)
    (marker : Span) :
    Prop :=
  ∃ front, ts.tokens = front ++ [Token.endOfInput marker] ∧
    ∀ token ∈ front, token.kind ≠ .endOfInput

/- A sequence ends with the end mark that it was given. -/
theorem endsWith_marker
    (ts : TokenSequence) :
    ts.EndsWith ts.marker :=
  ⟨ts.body, rfl, ts.unmarked⟩

/-
  The sequences that are built with an end mark in a place:
  from tokens without end marks, or from a source with the
  mark at its end.
-/
inductive BuiltWith : TokenSequence → Span → Prop where
| ofTokens
    {tokens : List Token}
    {marker : Span}
    {ts : TokenSequence}
    (hBuilt :
      TokenSequence.ofTokens tokens marker = .ok ts) :
    BuiltWith ts marker
| ofSource
    (src : String) :
    BuiltWith (TokenSequence.ofSource src)
      ⟨src.utf8ByteSize, 0⟩

/- The place of the end mark of a sequence that is built. -/
theorem BuiltWith.marker_eq
    {ts : TokenSequence}
    {marker : Span}
    (hBuilt : ts.BuiltWith marker) :
    ts.marker = marker := by
  cases hBuilt with
  | ofTokens hBuilt =>
      unfold TokenSequence.ofTokens at hBuilt
      split at hBuilt
      · cases hBuilt
        rfl
      · cases hBuilt
  | ofSource src =>
      rw [← Text.byteLength_toList]
      rfl

/-
  After all edits of a sequence, refused ones among them, the
  end mark that it was built with is the last token and the
  only end mark. A window may then be replaced exactly if it
  is not empty, ends before the end mark, and gives way to no
  end mark; the tokens around it stay, and a replacement that
  is refused leaves all tokens. None of the replacements that
  fold the sequence is refused.
-/
theorem endsWith_afterAll
    {start : TokenSequence}
    {marker : Span}
    (hBuilt : start.BuiltWith marker)
    (edits : List Edit) :
    let ts := start.afterAll edits
    ts.EndsWith marker ∧
      (∀ first last token,
        ts.Replaceable first last token →
          ∃ us, ts.edit (.replace first last token) = .ok us ∧
            ts.after (.replace first last token) = us ∧
            us.tokens =
              ts.tokens.take first ++
                token :: ts.tokens.drop last) ∧
      (∀ first last token,
        ¬ ts.Replaceable first last token →
          (∃ fault,
            ts.edit (.replace first last token) =
              .error fault) ∧
            ts.after (.replace first last token) = ts) ∧
      ts.edit .fold = .ok ts.fold := by
  intro ts
  have hMarker : ts.marker = marker :=
    (start.marker_afterAll edits).trans hBuilt.marker_eq
  refine ⟨?_, ?_, ?_, ts.foldInPlace_eq⟩
  · rw [← hMarker]
    exact ts.endsWith_marker
  · intro first last token hReplaceable
    rcases exists_replaceWindow_eq_ok hReplaceable with
      ⟨us, hReplace, _, _⟩
    refine
      ⟨us, hReplace, ?_, tokens_of_replaceWindow hReplace⟩
    rw [after, edit, hReplace]
  · intro first last token hOther
    rcases exists_replaceWindow_eq_error hOther with
      ⟨fault, hError⟩
    refine ⟨⟨fault, hError⟩, ?_⟩
    rw [after, edit, hError]

/- A window over the end mark, folding, and a replacement. -/
theorem endsWith_afterAll_refused :
    let start := ofSource "1 + 2;"
    let seven : Token := ⟨⟨.number, "7"⟩, ⟨4, 1⟩⟩
    let edits : List Edit :=
      [.replace 3 5 seven, .fold, .replace 0 1 seven]
    let ts := start.afterAll edits
    start.BuiltWith ⟨6, 0⟩ ∧ ts.size = 3 ∧
      ts.EndsWith ⟨6, 0⟩ ∧
      ts.Replaceable 1 2 seven ∧
      (∃ us, ts.edit (.replace 1 2 seven) = .ok us ∧
        ts.after (.replace 1 2 seven) = us ∧
        us.tokens =
          ts.tokens.take 1 ++ seven :: ts.tokens.drop 2) ∧
      ¬ ts.Replaceable 1 3 seven ∧
      (∃ fault,
        ts.edit (.replace 1 3 seven) = .error fault) ∧
      ts.edit .fold = .ok ts.fold := by
  intro start seven edits ts
  have hBuilt : start.BuiltWith ⟨6, 0⟩ :=
    .ofSource "1 + 2;"
  have hInside : ts.Replaceable 1 2 seven := by
    decide +kernel
  have hOver : ¬ ts.Replaceable 1 3 seven := by
    decide +kernel
  rcases endsWith_afterAll hBuilt edits with
    ⟨hEnds, hReplaced, hRefused, hFolds⟩
  exact
    ⟨hBuilt, by decide +kernel, hEnds, hInside,
      hReplaced 1 2 seven hInside, hOver,
      (hRefused 1 3 seven hOver).1, hFolds⟩

end TokenSequence

end IntDecl
