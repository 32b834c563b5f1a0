import IntDecl.Proofs.Tiling

/-
  This file says when two sources can be read apart.

  The tokens of a source that is made of two parts are those
  of the first part and, further on, those of the second. The
  only exception is a second part that begins with a character
  which continues the last token of the first.

  Key definitions include:
    * `Token.shift`
    * `TokenSequence.RunsInto`

  Key theorems include:
    * `TokenStream.remaining_shift`
    * `TokenStream.remaining_gap_append`
    * `TokenSequence.endsBefore_of_mem_append`
    * `TokenSequence.body_append_of_not_runsInto`
    * `TokenSequence.body_append_iff`
-/

------------------------------------------------------------
-- Divisions At A Byte
------------------------------------------------------------

namespace IntDecl

namespace Text

/- Only the empty text takes no bytes. -/
theorem byteLength_eq_zero_iff
    {cs : List Char} :
    byteLength cs = 0 ↔ cs = [] := by
  cases cs with
  | nil =>
      simp
  | cons c cs =>
      have hPositive := c.utf8Size_pos
      rw [byteLength_cons]
      simp only [reduceCtorEq, iff_false]
      omega

/- A text is divided at a byte in one way. -/
theorem append_inj_of_byteLength
    {first second more rest : List Char}
    (hText : first ++ more = second ++ rest)
    (hBytes : byteLength first = byteLength second) :
    first = second ∧ more = rest := by
  rcases List.append_eq_append_iff.mp hText with
    ⟨between, hSecond, hMore⟩ | ⟨between, hFirst, hRest⟩
  · rw [hSecond, byteLength_append] at hBytes
    have hEmpty : between = [] :=
      byteLength_eq_zero_iff.mp (by omega)
    rw [hSecond, hMore, hEmpty]
    exact ⟨(List.append_nil first).symm, rfl⟩
  · rw [hFirst, byteLength_append] at hBytes
    have hEmpty : between = [] :=
      byteLength_eq_zero_iff.mp (by omega)
    rw [hFirst, hRest, hEmpty]
    exact ⟨List.append_nil second, rfl⟩

end Text

end IntDecl

------------------------------------------------------------
-- Tokens Further On
------------------------------------------------------------

namespace IntDecl

namespace Span

/- A span moved on by a number of bytes. -/
def shift (n : Nat) (s : Span) : Span where
  offset := n + s.offset
  length := s.length

end Span

namespace Token

/- A token moved on by a number of bytes. -/
def shift (n : Nat) (token : Token) : Token where
  toLexeme := token.toLexeme
  span := token.span.shift n

/- A written form is placed further on as a whole. -/
theorem place_shift
    (n offset : Nat)
    (items : List (List Char × Lexeme)) :
    place (n + offset) items =
      (place offset items).map (shift n) := by
  induction items generalizing offset with
  | nil =>
      rfl
  | cons item items ih =>
      rcases item with ⟨gap, l⟩
      rw [place, place, List.map_cons, ← ih, shift,
        Span.shift]
      simp only [Nat.add_assoc]

/- The last lexeme of a written form is placed last. -/
theorem getLast?_place_concat
    (offset : Nat)
    (front : List (List Char × Lexeme))
    (gap : List Char)
    (l : Lexeme) :
    (place offset (front ++ [(gap, l)])).getLast? =
      some
        ⟨l, ⟨offset + Text.byteLength (Lexeme.write front) +
          Text.byteLength gap, l.size⟩⟩ := by
  rw [place_append]
  exact List.getLast?_concat

end Token

namespace Lexeme

/- Two gaps side by side are one gap. -/
theorem IsGap.append
    {first second : List Char}
    (hFirst : IsGap first)
    (hSecond : IsGap second) :
    IsGap (first ++ second) :=
  List.forall_mem_append.mpr ⟨hFirst, hSecond⟩

end Lexeme

namespace TokenStream

/- The same text holds the same tokens further on. -/
theorem remaining_shift
    (cs : List Char)
    (n offset : Nat) :
    (TokenStream.mk cs (n + offset)).remaining =
      (TokenStream.mk cs offset).remaining.map
        (Token.shift n) := by
  rcases (TokenStream.mk cs offset).exists_written_gap with
    ⟨items, gap, hWritten, hGap, hText, hRead⟩
  rw [hRead, ← Token.place_shift]
  exact remaining_of_write hWritten hGap hText

/- A gap in front of a text is passed over. -/
theorem remaining_gap_append
    {gap : List Char}
    (hGap : Lexeme.IsGap gap)
    (cs : List Char)
    (offset : Nat) :
    (TokenStream.mk (gap ++ cs) offset).remaining =
      (TokenStream.mk cs
        (offset + Text.byteLength gap)).remaining := by
  rcases isGap_or_meets
      (TokenStream.mk cs (offset + Text.byteLength gap)) with
    hRest | ⟨next, l, rest, hMeets⟩
  · have hWhole : Lexeme.IsGap (gap ++ cs) :=
      hGap.append hRest
    rw [remaining_of_isGap hRest, remaining_of_isGap hWhole]
  · have hText :
        gap ++ cs = (gap ++ next) ++ (l.text.toList ++ rest) := by
      rw [List.append_assoc, ← hMeets.text]
    have hWider :
        (TokenStream.mk (gap ++ cs) offset).Meets
          (gap ++ next) l rest :=
      ⟨hText, hGap.append hMeets.isGap, hMeets.valid,
        hMeets.ends⟩
    rw [hMeets.remaining_eq, hWider.remaining_eq, past, past]
    simp only [Text.byteLength_append, Nat.add_assoc]

end TokenStream

end IntDecl

------------------------------------------------------------
-- Sources In Two Parts
------------------------------------------------------------

namespace IntDecl

namespace Lexeme

/- What a lexeme takes in, by its kind. -/
theorem absorbs_iff
    (l : Lexeme)
    (c : Char) :
    l.absorbs c = true ↔
      (l.kind ∈ [.intKeyword, .identifier] ∧
          isWordPart c = true) ∨
        (l.kind = .number ∧ c.isDigit = true) := by
  unfold absorbs
  cases l.kind <;> simp

end Lexeme

namespace TokenSequence

/-
  A source begins with a character that continues the last
  token of another one: that token ends the other source and
  is a word before a letter, a digit or an underscore, or a
  number before a digit.
-/
def RunsInto (a b : String) : Prop :=
  ∃ token ∈ (ofSource a).body.getLast?,
    token.span.stop = a.utf8ByteSize ∧
      ∃ c ∈ b.toList.head?,
        (token.kind ∈ [.intKeyword, .identifier] ∧
            Lexeme.isWordPart c = true) ∨
          (token.kind = .number ∧ c.isDigit = true)

instance (a b : String) : Decidable (RunsInto a b) :=
  decidable_of_iff
    ((ofSource a).body.getLast?.any (fun token =>
      token.span.stop == a.utf8ByteSize &&
        b.toList.head?.any token.absorbs) = true)
    (by simp [RunsInto, Option.any_eq_true,
      Lexeme.absorbs_iff])

/-
  Where a source does not run into the next one, the written
  form of its tokens ends before the gap and that source.
-/
theorem allEndBefore_of_not_runsInto
    {a b : String}
    {items : List (List Char × Lexeme)}
    {gap : List Char}
    (hApart : ¬ RunsInto a b)
    (hGap : Lexeme.IsGap gap)
    (hText : a.toList = Lexeme.write items ++ gap)
    (hBody : (ofSource a).body = Token.place 0 items) :
    Lexeme.AllEndBefore items (gap ++ b.toList) := by
  intro item hLast
  by_cases hEmpty : gap = []
  · -- The last token ends the source, so that it would run
    -- into a character that it takes in.
    rcases item with ⟨next, l⟩
    rcases List.getLast?_eq_some_iff.mp hLast with
      ⟨front, hItems⟩
    have hPlaced :=
      Token.getLast?_place_concat 0 front next l
    rw [← hItems, ← hBody] at hPlaced
    intro c hHead
    apply Bool.eq_false_iff.mpr
    intro hAbsorbs
    apply hApart
    refine
      ⟨_, hPlaced, ?_, c, ?_, (l.absorbs_iff c).mp hAbsorbs⟩
    · rw [← Text.byteLength_toList, hText, hItems, hEmpty,
        Lexeme.write_append]
      simp [Span.stop, Lexeme.write, Lexeme.size,
        Nat.add_assoc]
    · rwa [hEmpty] at hHead
  · exact Lexeme.endsBefore_gap item.2 hGap hEmpty

/-
  Where a source does not run into the next one, the tokens
  of both together are those of each.
-/
theorem body_append_of_not_runsInto
    {a b : String}
    (hApart : ¬ RunsInto a b) :
    (ofSource (a ++ b)).body =
      (ofSource a).body ++
        (ofSource b).body.map
          (Token.shift a.utf8ByteSize) := by
  rcases exists_items a with
    ⟨items, gap, hWritten, hGap, hText, hBody⟩
  have hEnds :=
    allEndBefore_of_not_runsInto hApart hGap hText hBody
  have hSource :
      (a ++ b).toList =
        Lexeme.write items ++ (gap ++ b.toList) := by
    rw [String.toList_append, hText, List.append_assoc]
  have hSize :
      0 + Text.byteLength (Lexeme.write items) +
          Text.byteLength gap =
        a.utf8ByteSize + 0 := by
    rw [← Text.byteLength_toList, hText,
      Text.byteLength_append, Nat.zero_add, Nat.add_zero]
  calc
    (ofSource (a ++ b)).body
      = (TokenStream.mk
          (Lexeme.write items ++ (gap ++ b.toList))
          0).remaining := by
          rw [← hSource]
          rfl
    _ = Token.place 0 items ++
          (TokenStream.mk (gap ++ b.toList)
            (0 + Text.byteLength
              (Lexeme.write items))).remaining :=
          TokenStream.remaining_write hWritten hEnds 0
    _ = (ofSource a).body ++
          (TokenStream.mk b.toList
            (a.utf8ByteSize + 0)).remaining := by
          rw [TokenStream.remaining_gap_append hGap, hSize,
            hBody]
    _ = (ofSource a).body ++
          (ofSource b).body.map
            (Token.shift a.utf8ByteSize) := by
          rw [TokenStream.remaining_shift]
          rfl

/-
  A token of a source that is also one of the source and a
  text behind it ends where what is behind it begins.
-/
theorem endsBefore_of_mem_append
    {a b : String}
    {token : Token}
    (hMem : token ∈ (ofSource a).body)
    (hWhole : token ∈ (ofSource (a ++ b)).body) :
    ∃ before after,
      a.toList = before ++ (token.text.toList ++ after) ∧
        token.span =
          ⟨Text.byteLength before, token.size⟩ ∧
        token.EndsBefore (after ++ b.toList) := by
  rcases exists_ends_of_mem hMem with
    ⟨before, after, hText, hSpan, _⟩
  rcases exists_ends_of_mem hWhole with
    ⟨front, back, hSource, hPlace, hEnds⟩
  -- The token stands at the same byte of both texts.
  have hBytes :
      Text.byteLength before = Text.byteLength front := by
    rw [hSpan] at hPlace
    exact congrArg Span.offset hPlace
  have hSame :
      before ++
          (token.text.toList ++ (after ++ b.toList)) =
        front ++ (token.text.toList ++ back) := by
    rw [← hSource, String.toList_append, hText,
      List.append_assoc, List.append_assoc]
  have hBehind :=
    (Text.append_inj_of_byteLength hSame hBytes).2
  rw [List.append_cancel_left_eq] at hBehind
  rw [← hBehind] at hEnds
  exact ⟨before, after, hText, hSpan, hEnds⟩

/-
  The tokens of two sources, one behind the other, are the
  tokens of the first and, moved on behind it, those of the
  second, if and only if the first does not run into the
  second.
-/
theorem body_append_iff
    (a b : String) :
    (ofSource (a ++ b)).body =
        (ofSource a).body ++
          (ofSource b).body.map
            (Token.shift a.utf8ByteSize) ↔
      ¬ RunsInto a b := by
  constructor
  · intro hBody hRuns
    rcases hRuns with ⟨token, hLast, hStop, c, hHead, hPart⟩
    have hMem : token ∈ (ofSource a).body :=
      List.mem_of_getLast? hLast
    have hWhole : token ∈ (ofSource (a ++ b)).body := by
      rw [hBody]
      exact List.mem_append_left _ hMem
    rcases endsBefore_of_mem_append hMem hWhole with
      ⟨before, after, hText, hSpan, hEnds⟩
    have hEmpty : after = [] := by
      rw [hSpan, ← Text.byteLength_toList, hText] at hStop
      simp only [Span.stop, Lexeme.size,
        Text.byteLength_append] at hStop
      exact Text.byteLength_eq_zero_iff.mp (by omega)
    rw [hEmpty, List.nil_append] at hEnds
    have hNot : token.absorbs c = false := hEnds c hHead
    rw [(token.absorbs_iff c).mpr hPart] at hNot
    cases hNot
  · exact body_append_of_not_runsInto

end TokenSequence

end IntDecl
