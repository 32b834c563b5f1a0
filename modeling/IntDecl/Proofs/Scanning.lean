import IntDecl.Proofs.Lexing
import IntDecl.Token.Stream

/-
  This file says exactly which tokens a stream holds.

  A stream without tokens is a gap. Any other stream meets a
  gap and a lexeme and goes on behind them. Lexemes that are
  written out are read back in their places, whatever follows
  them, as long as it does not run together with the last of
  them; and what is read from a stream was written there.

  Key definitions include:
    * `TokenStream.Meets`
    * `TokenStream.past`
    * `Token.place`

  Key theorems include:
    * `TokenStream.meets_induction`
    * `TokenStream.remaining_write`
    * `TokenStream.exists_written_gap`
    * `TokenStream.exists_written`
-/

------------------------------------------------------------
-- Steps
------------------------------------------------------------

namespace IntDecl

namespace TokenStream

/-
  The unread text is a gap and a lexeme that is valid and
  ends before the text behind it.
-/
structure Meets
    (s : TokenStream)
    (gap : List Char)
    (l : Lexeme)
    (rest : List Char) : Prop where
  text : s.rest = gap ++ (l.text.toList ++ rest)
  isGap : Lexeme.IsGap gap
  valid : l.IsValid
  ends : l.EndsBefore rest

/- The stream behind a gap and a lexeme. -/
def past
    (s : TokenStream)
    (gap : List Char)
    (l : Lexeme)
    (rest : List Char) :
    TokenStream where
  rest := rest
  offset := s.offset + Text.byteLength gap + l.size

/- A stream holds a gap only, or it meets a lexeme. -/
theorem isGap_or_meets
    (s : TokenStream) :
    Lexeme.IsGap s.rest ∨
      ∃ gap l rest, s.Meets gap l rest := by
  have hGap : Lexeme.IsGap s.gap := by
    intro c hMem
    have hNot := Text.all_takeWhile _ _ c hMem
    simpa using hNot
  cases hPast : s.pastGap with
  | nil =>
      left
      rw [← s.gap_append_pastGap, hPast, List.append_nil]
      exact hGap
  | cons c cs =>
      right
      have hStarts : Lexeme.startsToken c = true := by
        have hStop := Text.head?_dropWhile
          (fun c => !Lexeme.startsToken c) s.rest c
        unfold pastGap at hPast
        rw [hPast] at hStop
        simpa using hStop rfl
      rw [← Lexeme.isSome_read?_iff c cs,
        Option.isSome_iff_exists] at hStarts
      rcases hStarts with ⟨⟨l, rest⟩, hRead⟩
      rcases Lexeme.read?_eq_some_iff.mp hRead with
        ⟨hText, hValid, hEnds⟩
      refine ⟨s.gap, l, rest, ?_, hGap, hValid, hEnds⟩
      rw [← hText, ← hPast, s.gap_append_pastGap]

/- A stream of a gap makes one step to its end. -/
theorem step_of_isGap
    {s : TokenStream}
    (hGap : Lexeme.IsGap s.rest) :
    s.step =
      ⟨s.rest, none,
        ⟨[], s.offset + Text.byteLength s.rest⟩⟩ := by
  have hAll :
      ∀ c ∈ s.rest, (!Lexeme.startsToken c) = true := by
    intro c hMem
    rw [hGap c hMem]
    rfl
  have hNone : ∀ c ∈ ([] : List Char).head?,
      (!Lexeme.startsToken c) = false := by
    simp
  have hFirst := Text.takeWhile_run hAll hNone
  have hSecond := Text.dropWhile_run hAll hNone
  rw [List.append_nil] at hFirst hSecond
  simp only [step, pastGap, start, gap]
  rw [hFirst, hSecond]
  rfl

/- A stream that meets a lexeme makes a step behind it. -/
theorem Meets.step_eq
    {s : TokenStream}
    {gap rest : List Char}
    {l : Lexeme}
    (hMeets : s.Meets gap l rest) :
    s.step =
      ⟨gap,
        some ⟨l, ⟨s.offset + Text.byteLength gap, l.size⟩⟩,
        s.past gap l rest⟩ := by
  have hAll :
      ∀ c ∈ gap, (!Lexeme.startsToken c) = true := by
    intro c hMem
    rw [hMeets.isGap c hMem]
    rfl
  have hStop :
      ∀ c ∈ (l.text.toList ++ rest).head?,
        (!Lexeme.startsToken c) = false := by
    rcases Lexeme.exists_head_of_isValid hMeets.valid with
      ⟨c, cs, hText, hStarts, _⟩
    intro d hHead
    rw [hText] at hHead
    cases hHead
    rw [hStarts]
    rfl
  have hRead :
      Lexeme.read? (l.text.toList ++ rest) =
        some (l, rest) :=
    Lexeme.read?_eq_some_iff.mpr
      ⟨rfl, hMeets.valid, hMeets.ends⟩
  simp only [step, pastGap, start, TokenStream.gap]
  rw [hMeets.text, Text.takeWhile_run hAll hStop,
    Text.dropWhile_run hAll hStop, hRead]
  rfl

end TokenStream

end IntDecl

------------------------------------------------------------
-- Tokens Of A Stream
------------------------------------------------------------

namespace IntDecl

namespace TokenStream

/- A stream of a gap is read in one step. -/
theorem scan_of_isGap
    {s : TokenStream}
    (hGap : Lexeme.IsGap s.rest) :
    s.scan =
      [⟨s.rest, none,
        ⟨[], s.offset + Text.byteLength s.rest⟩⟩] := by
  have hStep := step_of_isGap hGap
  rw [scan]
  split
  case h_1 hToken =>
    rw [hStep] at hToken
    cases hToken
  case h_2 =>
    rw [hStep]

/- The steps of a stream that meets a lexeme. -/
theorem Meets.scan_eq
    {s : TokenStream}
    {gap rest : List Char}
    {l : Lexeme}
    (hMeets : s.Meets gap l rest) :
    s.scan = s.step :: (s.past gap l rest).scan := by
  have hStep := hMeets.step_eq
  rw [scan]
  split
  case h_1 =>
    have hAfter : s.step.after = s.past gap l rest := by
      rw [hStep]
    exact congrArg (fun after => s.step :: scan after) hAfter
  case h_2 hToken =>
    rw [hStep] at hToken
    cases hToken

/- A stream of a gap holds no tokens. -/
theorem remaining_of_isGap
    {s : TokenStream}
    (hGap : Lexeme.IsGap s.rest) :
    s.remaining = [] := by
  rw [remaining, scan_of_isGap hGap]
  rfl

/- The tokens of a stream that meets a lexeme. -/
theorem Meets.remaining_eq
    {s : TokenStream}
    {gap rest : List Char}
    {l : Lexeme}
    (hMeets : s.Meets gap l rest) :
    s.remaining =
      ⟨l, ⟨s.offset + Text.byteLength gap, l.size⟩⟩ ::
        (s.past gap l rest).remaining := by
  rw [remaining, hMeets.scan_eq, hMeets.step_eq]
  rfl

/- Behind a lexeme there is less text. -/
theorem Meets.length_lt
    {s : TokenStream}
    {gap rest : List Char}
    {l : Lexeme}
    (hMeets : s.Meets gap l rest) :
    rest.length < s.rest.length := by
  rcases Lexeme.exists_head_of_isValid hMeets.valid with
    ⟨c, cs, hText, _⟩
  rw [hMeets.text, hText]
  simp only [List.length_append, List.length_cons]
  omega

/- What holds of gaps and from lexeme to lexeme holds. -/
theorem meets_induction
    {motive : TokenStream → Prop}
    (gap : ∀ s, Lexeme.IsGap s.rest → motive s)
    (lexeme :
      ∀ s gap l rest, s.Meets gap l rest →
        motive (s.past gap l rest) → motive s)
    (s : TokenStream) :
    motive s := by
  rcases s.isGap_or_meets with
    hGap | ⟨first, l, rest, hMeets⟩
  · exact gap s hGap
  · have hLess := hMeets.length_lt
    exact lexeme s first l rest hMeets
      (meets_induction gap lexeme (s.past first l rest))
termination_by s.rest.length

/- The tokens of a stream are valid. -/
theorem isValid_of_mem_remaining
    (s : TokenStream) :
    ∀ token ∈ s.remaining, token.toLexeme.IsValid := by
  induction s using meets_induction with
  | gap s hGap =>
      intro token hMem
      rw [remaining_of_isGap hGap] at hMem
      cases hMem
  | lexeme s gap l rest hMeets ih =>
      rw [hMeets.remaining_eq, List.forall_mem_cons]
      exact ⟨hMeets.valid, ih⟩

end TokenStream

end IntDecl

------------------------------------------------------------
-- Reading What Was Written
------------------------------------------------------------

namespace IntDecl

namespace Token

/- The tokens of a written form from a position on. -/
def place :
    Nat → List (List Char × Lexeme) → List Token
| _, [] => []
| offset, (gap, l) :: items =>
    ⟨l, ⟨offset + Text.byteLength gap, l.size⟩⟩ ::
      place (offset + Text.byteLength gap + l.size) items

/- The lexemes of a written form are kept in their places. -/
theorem lexemes_place
    (offset : Nat)
    (items : List (List Char × Lexeme)) :
    lexemes (place offset items) = items.map Prod.snd := by
  induction items generalizing offset with
  | nil =>
      rfl
  | cons item items ih =>
      exact congrArg (item.2 :: ·) (ih _)

end Token

namespace Lexeme

/- The last lexeme of a written form ends before a text. -/
def AllEndBefore
    (items : List (List Char × Lexeme))
    (rest : List Char) :
    Prop :=
  ∀ item ∈ items.getLast?, item.2.EndsBefore rest

/- The text of a written form, the first item apart. -/
theorem write_cons
    (gap : List Char)
    (l : Lexeme)
    (items : List (List Char × Lexeme))
    (rest : List Char) :
    write ((gap, l) :: items) ++ rest =
      gap ++ (l.text.toList ++ (write items ++ rest)) := by
  simp [write]

/- A written form is written part by part. -/
theorem write_append
    (first second : List (List Char × Lexeme)) :
    write (first ++ second) = write first ++ write second :=
  List.flatMap_append

/- A lexeme of a written form ends before the next one. -/
theorem endsBefore_write
    {l m : Lexeme}
    {next rest : List Char}
    {items : List (List Char × Lexeme)}
    (hGap : IsGap next)
    (hValid : m.IsValid)
    (hGlue : l.Glues m → next ≠ []) :
    l.EndsBefore (write ((next, m) :: items) ++ rest) := by
  rw [write_cons]
  by_cases hEmpty : next = []
  · rw [hEmpty, List.nil_append,
      endsBefore_iff_not_glues l hValid]
    intro hGlues
    exact hGlue hGlues hEmpty
  · exact endsBefore_gap l hGap hEmpty

/- The gap and the lexeme in front of a written form. -/
theorem Written.head
    {gap : List Char}
    {l : Lexeme}
    {items : List (List Char × Lexeme)}
    (hWritten : Written ((gap, l) :: items)) :
    IsGap gap ∧ l.IsValid := by
  cases hWritten with
  | single hGap hValid =>
      exact ⟨hGap, hValid⟩
  | cons hGap hValid =>
      exact ⟨hGap, hValid⟩

/- The gap in front of a written form may be any gap. -/
theorem Written.with_gap
    {gap next : List Char}
    {l : Lexeme}
    {items : List (List Char × Lexeme)}
    (hWritten : Written ((gap, l) :: items))
    (hNext : IsGap next) :
    Written ((next, l) :: items) := by
  cases hWritten with
  | single _ hValid =>
      exact .single hNext hValid
  | cons _ hValid hGlue hRest =>
      exact .cons hNext hValid hGlue hRest

/- A lexeme of a written form ends before what follows. -/
theorem Written.endsBefore
    {gap rest : List Char}
    {l : Lexeme}
    {items : List (List Char × Lexeme)}
    (hWritten : Written ((gap, l) :: items))
    (hEnds : AllEndBefore ((gap, l) :: items) rest) :
    l.EndsBefore (write items ++ rest) := by
  cases hWritten with
  | single _ _ =>
      exact hEnds (gap, l) rfl
  | cons _ _ hGlue hRest =>
      exact endsBefore_write hRest.head.1 hRest.head.2 hGlue

/- A written form without its first item is one. -/
theorem Written.tail
    {item : List Char × Lexeme}
    {items : List (List Char × Lexeme)}
    (hWritten : Written (item :: items)) :
    Written items := by
  cases hWritten with
  | single _ _ =>
      exact .nil
  | cons _ _ _ hRest =>
      exact hRest

/- The first items of a written form are one. -/
theorem Written.of_append_left
    {items more : List (List Char × Lexeme)}
    (hWritten : Written (items ++ more)) :
    Written items := by
  induction items with
  | nil =>
      exact .nil
  | cons item items ih =>
      have hLater := ih hWritten.tail
      cases items with
      | nil =>
          exact .single hWritten.head.1 hWritten.head.2
      | cons next items =>
          cases hWritten with
          | cons hGap hValid hGlue _ =>
              exact .cons hGap hValid hGlue hLater

/- The last items of a written form are one. -/
theorem Written.of_append_right
    {items more : List (List Char × Lexeme)}
    (hWritten : Written (items ++ more)) :
    Written more := by
  induction items with
  | nil =>
      exact hWritten
  | cons item items ih =>
      exact ih hWritten.tail

/- A gap and a lexeme in front of a written form. -/
theorem Written.cons_of_endsBefore
    {gap rest : List Char}
    {l : Lexeme}
    {items : List (List Char × Lexeme)}
    (hGap : IsGap gap)
    (hValid : l.IsValid)
    (hEnds : l.EndsBefore (write items ++ rest))
    (hItems : Written items) :
    Written ((gap, l) :: items) := by
  cases items with
  | nil =>
      exact .single hGap hValid
  | cons item items =>
      rcases item with ⟨next, m⟩
      refine .cons hGap hValid ?_ hItems
      intro hGlues hEmpty
      rw [write_cons, hEmpty, List.nil_append,
        endsBefore_iff_not_glues l hItems.head.2] at hEnds
      exact hEnds hGlues

/- The number of bytes of a written form. -/
theorem byteLength_write_cons
    (gap : List Char)
    (l : Lexeme)
    (items : List (List Char × Lexeme)) :
    Text.byteLength (write ((gap, l) :: items)) =
      Text.byteLength gap + l.size +
        Text.byteLength (write items) := by
  simp [write, size, Text.byteLength_append, Nat.add_assoc]

end Lexeme

namespace TokenStream

/-
  Lexemes that are written out are read back in their places,
  if the last of them ends before what follows.
-/
theorem remaining_write
    {items : List (List Char × Lexeme)}
    (hWritten : Lexeme.Written items)
    {rest : List Char}
    (hEnds : Lexeme.AllEndBefore items rest)
    (offset : Nat) :
    (TokenStream.mk (Lexeme.write items ++ rest)
        offset).remaining =
      Token.place offset items ++
        (TokenStream.mk rest
          (offset + Text.byteLength
            (Lexeme.write items))).remaining := by
  induction items generalizing offset with
  | nil =>
      rfl
  | cons item items ih =>
      rcases item with ⟨gap, l⟩
      have hMeets :
          (TokenStream.mk
            (Lexeme.write ((gap, l) :: items) ++ rest)
            offset).Meets gap l
              (Lexeme.write items ++ rest) :=
        ⟨Lexeme.write_cons gap l items rest,
          hWritten.head.1, hWritten.head.2,
          hWritten.endsBefore hEnds⟩
      have hLater : Lexeme.AllEndBefore items rest := by
        intro last hLast
        apply hEnds
        rw [List.getLast?_cons, Option.mem_def.mp hLast]
        rfl
      rw [hMeets.remaining_eq, Token.place,
        Lexeme.byteLength_write_cons, ← Nat.add_assoc,
        ← Nat.add_assoc]
      exact
        congrArg (_ :: ·) (ih hWritten.tail hLater _)

/-
  A stream is a written form with a gap behind it, and its
  tokens are the lexemes of that form in their places.
-/
theorem exists_written_gap
    (s : TokenStream) :
    ∃ items gap, Lexeme.Written items ∧ Lexeme.IsGap gap ∧
      s.rest = Lexeme.write items ++ gap ∧
      s.remaining = Token.place s.offset items := by
  induction s using meets_induction with
  | gap s hGap =>
      exact ⟨[], s.rest, .nil, hGap, rfl,
        remaining_of_isGap hGap⟩
  | lexeme s gap l rest hMeets ih =>
      rcases ih with
        ⟨items, last, hItems, hLast, hRest, hTokens⟩
      have hEnds := hMeets.ends
      change rest = _ at hRest
      rw [hRest] at hEnds
      refine ⟨(gap, l) :: items, last, ?_, hLast, ?_, ?_⟩
      · exact .cons_of_endsBefore hMeets.isGap
          hMeets.valid hEnds hItems
      · rw [hMeets.text, hRest, Lexeme.write_cons]
      · rw [hMeets.remaining_eq, hTokens]
        rfl

/-
  The first tokens of a stream stand at the front of its text
  as a written form.
-/
theorem exists_written
    (s : TokenStream)
    {lexemes : List Lexeme}
    (hPrefix : lexemes <+: Token.lexemes s.remaining) :
    ∃ items rest, Lexeme.Written items ∧
      items.map Prod.snd = lexemes ∧
      s.rest = Lexeme.write items ++ rest := by
  rcases s.exists_written_gap with
    ⟨items, gap, hItems, _, hText, hTokens⟩
  rw [hTokens, Token.lexemes_place] at hPrefix
  rcases List.prefix_map_iff.mp hPrefix with
    ⟨front, ⟨back, hFront⟩, hLexemes⟩
  rw [← hFront] at hItems hText
  refine ⟨front, Lexeme.write back ++ gap,
    hItems.of_append_left, hLexemes.symm, ?_⟩
  rw [hText, Lexeme.write_append, List.append_assoc]

end TokenStream

end IntDecl
