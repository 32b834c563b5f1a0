import IntDecl.Proofs.Scanning

/-
  This file says where the tokens of a source stand.

  Every source is a written form with a gap behind it. Its
  tokens are the lexemes of that form, one after the other,
  each at the position where its text begins.

  Key definitions include:
    * `Token.Ordered`

  Key theorems include:
    * `Token.mem_place_iff`
    * `Token.ordered_place`
    * `TokenSequence.exists_items`
    * `TokenSequence.exists_ends_of_mem`
    * `TokenSequence.body_ofSource_of_write`
    * `TokenSequence.tokens_ofSource_write`
-/

------------------------------------------------------------
-- Places In A Written Form
------------------------------------------------------------

namespace IntDecl

namespace Token

/- The parts of a written form are placed in turn. -/
theorem place_append
    (offset : Nat)
    (first second : List (List Char × Lexeme)) :
    place offset (first ++ second) =
      place offset first ++
        place
          (offset + Text.byteLength (Lexeme.write first))
          second := by
  induction first generalizing offset with
  | nil =>
      rfl
  | cons item first ih =>
      rcases item with ⟨gap, l⟩
      rw [List.cons_append, place, place, ih,
        Lexeme.byteLength_write_cons, List.cons_append]
      simp only [Nat.add_assoc]

/-
  A token is placed exactly if its lexeme is one of the
  written form and it stands behind all that is written in
  front of that lexeme.
-/
theorem mem_place_iff
    {token : Token}
    {offset : Nat}
    {items : List (List Char × Lexeme)} :
    token ∈ place offset items ↔
      ∃ front gap l back,
        items = front ++ (gap, l) :: back ∧
          token =
            ⟨l, ⟨offset + Text.byteLength
              (Lexeme.write front ++ gap), l.size⟩⟩ := by
  constructor
  · intro hMem
    induction items generalizing offset with
    | nil =>
        cases hMem
    | cons item items ih =>
        rcases item with ⟨gap, l⟩
        rcases List.mem_cons.mp hMem with hFirst | hLater
        · exact ⟨[], gap, l, items, rfl, hFirst⟩
        · rcases ih hLater with
            ⟨front, next, m, back, hItems, hToken⟩
          refine
            ⟨(gap, l) :: front, next, m, back, ?_, ?_⟩
          · rw [hItems, List.cons_append]
          · rw [hToken, Text.byteLength_append,
              Text.byteLength_append,
              Lexeme.byteLength_write_cons]
            simp only [Nat.add_assoc]
  · intro hPlace
    rcases hPlace with
      ⟨front, gap, l, back, hItems, hToken⟩
    rw [hItems, place_append, hToken,
      Text.byteLength_append, ← Nat.add_assoc]
    exact List.mem_append_right _ List.mem_cons_self

/- No token is placed before the start of the text. -/
theorem le_offset_of_mem_place
    {token : Token}
    {offset : Nat}
    {items : List (List Char × Lexeme)}
    (hMem : token ∈ place offset items) :
    offset ≤ token.span.offset := by
  rcases mem_place_iff.mp hMem with ⟨_, _, _, _, _, hToken⟩
  rw [hToken]
  exact Nat.le_add_right _ _

/- Tokens that stand one after the other, none in another. -/
def Ordered (tokens : List Token) : Prop :=
  tokens.Pairwise fun t u => t.span.stop ≤ u.span.offset

instance (tokens : List Token) :
    Decidable (Ordered tokens) := by
  unfold Ordered
  infer_instance

/- The lexemes of a written form are placed in order. -/
theorem ordered_place
    (offset : Nat)
    (items : List (List Char × Lexeme)) :
    Ordered (place offset items) := by
  induction items generalizing offset with
  | nil =>
      exact List.Pairwise.nil
  | cons item items ih =>
      rcases item with ⟨gap, l⟩
      refine List.Pairwise.cons ?_ (ih _)
      intro token hMem
      exact le_offset_of_mem_place hMem

end Token

end IntDecl

------------------------------------------------------------
-- Places In A Source
------------------------------------------------------------

namespace IntDecl

namespace Lexeme

/- The text of a written form around one of its lexemes. -/
theorem write_append_cons
    (front back : List (List Char × Lexeme))
    (gap : List Char)
    (l : Lexeme)
    (rest : List Char) :
    write (front ++ (gap, l) :: back) ++ rest =
      (write front ++ gap) ++
        (l.text.toList ++ (write back ++ rest)) := by
  rw [write_append, List.append_assoc, write_cons,
    List.append_assoc]

/- A written form ends before a gap. -/
theorem allEndBefore_of_isGap
    {gap : List Char}
    (hGap : IsGap gap)
    (items : List (List Char × Lexeme)) :
    AllEndBefore items gap := by
  intro item _
  by_cases hEmpty : gap = []
  · rw [hEmpty]
    exact endsBefore_nil item.2
  · have hEnds : item.2.EndsBefore (gap ++ []) :=
      endsBefore_gap item.2 hGap hEmpty
    rwa [List.append_nil] at hEnds

end Lexeme

namespace TokenStream

/-
  The tokens of a stream that is a written form with a gap
  behind it are the lexemes of that form in their places.
-/
theorem remaining_of_write
    {s : TokenStream}
    {items : List (List Char × Lexeme)}
    {gap : List Char}
    (hWritten : Lexeme.Written items)
    (hGap : Lexeme.IsGap gap)
    (hText : s.rest = Lexeme.write items ++ gap) :
    s.remaining = Token.place s.offset items := by
  have hRead :=
    remaining_write hWritten
      (Lexeme.allEndBefore_of_isGap hGap items) s.offset
  have hRest :
      (TokenStream.mk gap
        (s.offset + Text.byteLength
          (Lexeme.write items))).remaining = [] :=
    remaining_of_isGap hGap
  rwa [hRest, List.append_nil, ← hText] at hRead

end TokenStream

namespace TokenSequence

/- A source is a written form of its tokens and a gap. -/
theorem exists_items
    (src : String) :
    ∃ items gap, Lexeme.Written items ∧ Lexeme.IsGap gap ∧
      src.toList = Lexeme.write items ++ gap ∧
      (ofSource src).body = Token.place 0 items :=
  (TokenStream.ofString src).exists_written_gap

/-
  A token of a source stands there: before it and after it
  are other parts of the source, and it ends where the later
  part begins.
-/
theorem exists_ends_of_mem
    {src : String}
    {token : Token}
    (hMem : token ∈ (ofSource src).body) :
    ∃ before after,
      src.toList =
          before ++ (token.text.toList ++ after) ∧
        token.span =
          ⟨Text.byteLength before, token.size⟩ ∧
        token.EndsBefore after := by
  rcases exists_items src with
    ⟨items, gap, hWritten, hGap, hText, hBody⟩
  rw [hBody] at hMem
  rcases Token.mem_place_iff.mp hMem with
    ⟨front, next, l, back, hItems, hToken⟩
  subst hItems hToken
  refine
    ⟨Lexeme.write front ++ next, Lexeme.write back ++ gap,
      ?_, ?_, ?_⟩
  · rw [hText, Lexeme.write_append_cons]
  · rw [Nat.zero_add]
  · exact
      hWritten.of_append_right.endsBefore
        (Lexeme.allEndBefore_of_isGap hGap _)

/- The tokens of a source stand in order. -/
theorem ordered_ofSource
    (src : String) :
    Token.Ordered (ofSource src).body := by
  rcases exists_items src with ⟨items, _, _, _, _, hBody⟩
  rw [hBody]
  exact Token.ordered_place 0 items

/-
  The tokens of a source that is a written form with a gap
  behind it are the lexemes of that form in their places.
-/
theorem body_ofSource_of_write
    {src : String}
    {items : List (List Char × Lexeme)}
    {gap : List Char}
    (hWritten : Lexeme.Written items)
    (hGap : Lexeme.IsGap gap)
    (hText : src.toList = Lexeme.write items ++ gap) :
    (ofSource src).body = Token.place 0 items :=
  TokenStream.remaining_of_write hWritten hGap hText

/-
  Lexemes that are written out with a gap behind them are
  read back as the tokens of that text, each in its place,
  and the end mark stands at the end of the text.
-/
theorem tokens_ofSource_write
    {items : List (List Char × Lexeme)}
    {gap : List Char}
    (hWritten : Lexeme.Written items)
    (hGap : Lexeme.IsGap gap) :
    (ofSource
        (String.ofList (Lexeme.write items ++ gap))).tokens =
      Token.place 0 items ++
        [Token.endOfInput
          ⟨Text.byteLength (Lexeme.write items ++ gap),
            0⟩] := by
  have hRead :=
    TokenStream.remaining_write hWritten
      (Lexeme.allEndBefore_of_isGap hGap items) 0
  have hRest :
      (TokenStream.mk gap
        (0 + Text.byteLength
          (Lexeme.write items))).remaining = [] :=
    TokenStream.remaining_of_isGap hGap
  rw [hRest, List.append_nil] at hRead
  simp only [tokens, ofSource, TokenStream.ofString,
    String.toList_ofList, hRead]

/-
  A name that begins like the keyword, a name right behind a
  number, and gaps of characters of several bytes.
-/
theorem tokens_ofSource_write_adjacent :
    let items : List (List Char × Lexeme) :=
      [(['é', ' '], ⟨.intKeyword, "int"⟩),
        ([' '], ⟨.identifier, "int_2"⟩),
        ([], ⟨.assign, "="⟩),
        ([], ⟨.number, "12"⟩),
        ([], ⟨.identifier, "ab"⟩),
        (['🦀'], ⟨.number, "007"⟩)]
    let gap := ['\n']
    Lexeme.Written items ∧ Lexeme.IsGap gap ∧
      (ofSource
          (String.ofList
            (Lexeme.write items ++ gap))).tokens =
        Token.place 0 items ++
          [Token.endOfInput
            ⟨Text.byteLength (Lexeme.write items ++ gap),
              0⟩] := by
  intro items gap
  have hWritten : Lexeme.Written items := by
    refine .cons ?_ ?_ ?_ (.cons ?_ ?_ ?_ (.cons ?_ ?_ ?_
      (.cons ?_ ?_ ?_ (.cons ?_ ?_ ?_ (.single ?_ ?_)))))
    all_goals decide +kernel
  have hGap : Lexeme.IsGap gap := by
    decide
  exact
    ⟨hWritten, hGap, tokens_ofSource_write hWritten hGap⟩

end TokenSequence

end IntDecl
