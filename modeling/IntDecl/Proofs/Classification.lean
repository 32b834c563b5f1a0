import IntDecl.Proofs.Placement

/-
  This file shows that the tokens of a source are classified
  by their texts and are as long as can be.

  The text of a token tells its kind. Neither what stands
  right before a token nor what stands right after it could
  belong to it; a word can follow a digit only where a number
  ends.

  Key definitions include:
    * `Token.StandsApart`

  Key theorems include:
    * `Lexeme.kind_eq_of_isValid`
    * `Lexeme.Written.apart_before_word`
    * `TokenSequence.maximal_of_mem`
-/

------------------------------------------------------------
-- Kinds And Texts
------------------------------------------------------------

namespace IntDecl

namespace Lexeme

/-
  Valid lexemes with the same text are of the same kind, since
  one lexeme is read from that text.
-/
theorem kind_eq_of_isValid
    {l m : Lexeme}
    (hFirst : l.IsValid)
    (hSecond : m.IsValid)
    (hText : l.text = m.text) :
    l.kind = m.kind := by
  have hReadFirst :
      read? l.text.toList = some (l, []) :=
    read?_eq_some_iff.mpr
      ⟨(List.append_nil _).symm, hFirst, endsBefore_nil l⟩
  have hReadSecond :
      read? m.text.toList = some (m, []) :=
    read?_eq_some_iff.mpr
      ⟨(List.append_nil _).symm, hSecond, endsBefore_nil m⟩
  rw [hText, hReadSecond] at hReadFirst
  cases hReadFirst
  rfl

end Lexeme

end IntDecl

------------------------------------------------------------
-- Characters Before Words
------------------------------------------------------------

namespace IntDecl

namespace Lexeme

/-
  A lexeme other than a word does not end with a character
  that begins a word; it ends with a digit only if it is a
  number.
-/
theorem apart_at_end
    {l : Lexeme}
    (hValid : l.IsValid)
    (hOther : l.kind ∉ [.intKeyword, .identifier]) :
    ∀ c ∈ l.text.toList.getLast?,
      isWordStart c = false ∧
        (c.isDigit = true → l.kind = .number) := by
  rcases (isValid_iff l).mp hValid with
    ⟨word, hWord, rfl⟩ | ⟨digits, hDigits, rfl⟩ |
      ⟨sign, kind, hSign, rfl⟩
  · exact absurd (kind_ofWord_mem word) hOther
  · rw [ofDigits, String.toList_ofList]
    intro c hLast
    have hDigit :=
      hDigits.2 c (List.mem_of_getLast? hLast)
    exact ⟨isWordStart_of_isDigit hDigit, fun _ => rfl⟩
  · rw [ofSign, String.toList_ofList]
    intro c hLast
    have hSame : sign = c := by
      simpa using hLast
    subst hSame
    rcases apart_of_signKind? hSign with
      ⟨hStart, hDigit, _⟩
    exact ⟨hStart, by simp [hDigit]⟩

/- A written form ends with the text of its last lexeme. -/
theorem getLast?_write_concat
    {m : Lexeme}
    (hValid : m.IsValid)
    (front : List (List Char × Lexeme))
    (gap : List Char) :
    (write (front ++ [(gap, m)])).getLast? =
      m.text.toList.getLast? := by
  rcases exists_head_of_isValid hValid with ⟨c, cs, hText, _⟩
  have hWrite :
      write (front ++ [(gap, m)]) =
        (write front ++ gap) ++ m.text.toList := by
    simp [write]
  rw [hWrite, List.getLast?_append, hText,
    List.getLast?_cons, Option.some_or]

/-
  In front of a word of a written form stands no character
  that begins a word, and a digit only where a number ends.
-/
theorem Written.apart_before_word
    {front back : List (List Char × Lexeme)}
    {gap : List Char}
    {l : Lexeme}
    (hWritten : Written (front ++ (gap, l) :: back))
    (hWord : l.kind ∈ [.intKeyword, .identifier]) :
    ∀ c ∈ (write front ++ gap).getLast?,
      isWordStart c = false ∧
        (c.isDigit = true →
          gap = [] ∧ ∃ others next m,
            front = others ++ [(next, m)] ∧
              m.kind = .number) := by
  intro c hLast
  rw [List.getLast?_append, Option.mem_def,
    Option.or_eq_some_iff] at hLast
  rcases hLast with hGapLast | ⟨hNone, hFrontLast⟩
  · have hMem := List.mem_of_getLast? hGapLast
    have hGap := hWritten.of_append_right.head.1 c hMem
    rcases apart_of_startsToken hGap with ⟨hPart, hDigit⟩
    rw [isWordPart_iff, Bool.or_eq_false_iff] at hPart
    exact ⟨hPart.1, by simp [hDigit]⟩
  · have hEmpty : gap = [] :=
      List.getLast?_eq_none_iff.mp hNone
    subst hEmpty
    rcases List.eq_nil_or_concat front with
      hFront | ⟨others, ⟨next, m⟩, hFront⟩
    · rw [hFront] at hFrontLast
      cases hFrontLast
    · rw [List.concat_eq_append] at hFront
      subst hFront
      rw [List.append_assoc] at hWritten
      have hPair := hWritten.of_append_right
      have hValid : m.IsValid := hPair.head.2
      have hApart : ¬ m.Glues l := by
        cases hPair with
        | cons _ _ hGlue _ =>
            intro hGlues
            exact hGlue hGlues rfl
      have hOther : m.kind ∉ [.intKeyword, .identifier] := by
        intro hKind
        have hWider :
            l.kind ∈
              [.intKeyword, .identifier] ++
                [TokenKind.number] :=
          List.mem_append_left _ hWord
        exact hApart (.inl ⟨hKind, hWider⟩)
      have hText : m.text.toList.getLast? = some c := by
        rw [← getLast?_write_concat hValid others next]
        exact hFrontLast
      rcases apart_at_end hValid hOther c hText with
        ⟨hStart, hNumber⟩
      refine ⟨hStart, ?_⟩
      intro hDigit
      exact ⟨rfl, others, next, m, rfl, hNumber hDigit⟩

end Lexeme

end IntDecl

------------------------------------------------------------
-- Tokens Of A Source
------------------------------------------------------------

namespace IntDecl

namespace Token

/-
  A token stands in a source between two texts that do not
  continue it. A word does not come right after a letter or
  an underscore, and right after a digit only if that digit
  ends a number.
-/
structure StandsApart
    (token : Token)
    (src : String)
    (before after : List Char) : Prop where
  text :
    src.toList = before ++ (token.text.toList ++ after)
  span :
    token.span = ⟨Text.byteLength before, token.size⟩
  afterWord :
    token.kind ∈ [.intKeyword, .identifier] →
      ∀ c ∈ after.head?, Lexeme.isWordPart c = false
  afterNumber :
    token.kind = .number →
      ∀ c ∈ after.head?, c.isDigit = false
  beforeWord :
    token.kind ∈ [.intKeyword, .identifier] →
      ∀ c ∈ before.getLast?,
        Lexeme.isWordStart c = false ∧
          (c.isDigit = true →
            ∃ number ∈ (TokenSequence.ofSource src).body,
              number.kind = .number ∧
                number.span.stop = token.span.offset)

end Token

namespace TokenSequence

/-
  A token of a source is of a kind exactly if its text is one
  for that kind, and it stands apart from the text around it.
-/
theorem maximal_of_mem
    {src : String}
    {token : Token}
    (hMem : token ∈ (ofSource src).body) :
    (∀ kind,
        token.kind = kind ↔
          (Lexeme.mk kind token.text).IsValid) ∧
      ∃ before after,
        token.StandsApart src before after := by
  have hValid : token.toLexeme.IsValid :=
    TokenStream.isValid_of_mem_remaining _ token hMem
  rcases exists_items src with
    ⟨items, gap, hWritten, hGap, hText, hBody⟩
  rw [hBody] at hMem
  rcases Token.mem_place_iff.mp hMem with
    ⟨front, next, l, back, hItems, hToken⟩
  rw [Nat.zero_add] at hToken
  subst hItems hToken
  have hEnds : l.EndsBefore (Lexeme.write back ++ gap) :=
    hWritten.of_append_right.endsBefore
      (Lexeme.allEndBefore_of_isGap hGap _)
  refine ⟨?_, Lexeme.write front ++ next,
    Lexeme.write back ++ gap, ?_⟩
  · intro kind
    constructor
    · intro hKind
      rw [← hKind]
      exact hValid
    · intro hOther
      exact Lexeme.kind_eq_of_isValid hValid hOther rfl
  · constructor
    case text =>
      rw [hText, Lexeme.write_append_cons]
    case span =>
      rfl
    case afterWord =>
      intro hWord c hHead
      rw [← Lexeme.absorbs_of_word hWord]
      exact hEnds c hHead
    case afterNumber =>
      intro hNumber c hHead
      rw [← Lexeme.absorbs_of_number hNumber]
      exact hEnds c hHead
    case beforeWord =>
      intro hWord c hLast
      rcases hWritten.apart_before_word hWord c hLast with
        ⟨hStart, hNumber⟩
      refine ⟨hStart, ?_⟩
      intro hDigit
      rcases hNumber hDigit with
        ⟨hNext, others, last, m, hFront, hKind⟩
      subst hNext hFront
      let number : Token :=
        ⟨m, ⟨Text.byteLength (Lexeme.write others ++ last),
          m.size⟩⟩
      have hPlace :
          number ∈ Token.place 0
            (others ++ (last, m) :: ([], l) :: back) :=
        Token.mem_place_iff.mpr
          ⟨others, last, m, ([], l) :: back, rfl,
            by rw [Nat.zero_add]⟩
      refine ⟨number, ?_, hKind, ?_⟩
      · rw [hBody, List.append_assoc]
        exact hPlace
      · simp [number, Span.stop, Lexeme.write, Lexeme.size,
          Nat.add_assoc]

/- A word between the digits of a number and a blank. -/
theorem maximal_after_number :
    let src := "é12ab_int 007;"
    let token : Token := ⟨⟨.identifier, "ab_int"⟩, ⟨4, 6⟩⟩
    token ∈ (ofSource src).body ∧
      (∀ kind,
        token.kind = kind ↔
          (Lexeme.mk kind token.text).IsValid) ∧
      ∃ before after,
        token.StandsApart src before after := by
  intro src token
  have hMem : token ∈ (ofSource src).body := by
    decide +kernel
  exact ⟨hMem, maximal_of_mem hMem⟩

end TokenSequence

end IntDecl
