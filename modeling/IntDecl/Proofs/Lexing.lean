import IntDecl.Lexeme.Writing

/-
  This file says exactly what it is to read a lexeme.

  A lexeme is read off the front of a text if it is valid, it
  stands there, and the character after it cannot belong to
  it. Two lexemes run together exactly when the first one
  would take in the first character of the second.

  Key definitions include:
    * `Lexeme.absorbs`
    * `Lexeme.EndsBefore`

  Key theorems include:
    * `Lexeme.read?_eq_some_iff`
    * `Lexeme.endsBefore_iff_not_glues`
-/

------------------------------------------------------------
-- Longest Runs
------------------------------------------------------------

namespace IntDecl

namespace Text

variable {p : Char → Bool}
variable {run rest : List Char}

/- A run of characters is taken up to its end. -/
theorem takeWhile_run
    (hRun : ∀ c ∈ run, p c = true)
    (hRest : ∀ c ∈ rest.head?, p c = false) :
    (run ++ rest).takeWhile p = run := by
  rw [List.takeWhile_append_of_pos hRun]
  cases rest with
  | nil =>
      simp
  | cons c rest =>
      have hStop : p c = false := hRest c rfl
      simp [hStop]

/- A run of characters is dropped up to its end. -/
theorem dropWhile_run
    (hRun : ∀ c ∈ run, p c = true)
    (hRest : ∀ c ∈ rest.head?, p c = false) :
    (run ++ rest).dropWhile p = rest := by
  rw [List.dropWhile_append_of_pos hRun]
  cases rest with
  | nil =>
      simp
  | cons c rest =>
      have hStop : p c = false := hRest c rfl
      simp [hStop]

/- The character after a longest run is none of its kind. -/
theorem head?_dropWhile
    (p : Char → Bool)
    (cs : List Char) :
    ∀ c ∈ (cs.dropWhile p).head?, p c = false := by
  intro c hHead
  have hNot := List.head?_dropWhile_not p cs
  rw [Option.mem_def.mp hHead] at hNot
  exact hNot

/- All characters of a longest run are of its kind. -/
theorem all_takeWhile
    (p : Char → Bool)
    (cs : List Char) :
    ∀ c ∈ cs.takeWhile p, p c = true :=
  List.all_eq_true.mp List.all_takeWhile

end Text

end IntDecl

------------------------------------------------------------
-- Characters Apart
------------------------------------------------------------

namespace IntDecl

namespace Lexeme

/- What begins a word is no digit. -/
theorem isDigit_of_isWordStart
    {c : Char}
    (hStart : isWordStart c = true) :
    c.isDigit = false := by
  apply Bool.eq_false_iff.mpr
  intro hDigit
  rw [isWordStart, Bool.or_eq_true, beq_iff_eq] at hStart
  rcases hStart with hLetter | hUnderscore
  · unfold Char.isAlpha Char.isUpper Char.isLower at hLetter
    unfold Char.isDigit at hDigit
    simp only [Bool.or_eq_true, Bool.and_eq_true,
      decide_eq_true_eq, ge_iff_le, UInt32.le_iff_toNat_le,
      Char.reduceVal, UInt32.reduceToNat] at hLetter hDigit
    omega
  · rw [hUnderscore] at hDigit
    exact absurd hDigit (by decide)

/- No digit begins a word. -/
theorem isWordStart_of_isDigit
    {c : Char}
    (hDigit : c.isDigit = true) :
    isWordStart c = false := by
  apply Bool.eq_false_iff.mpr
  intro hStart
  rw [isDigit_of_isWordStart hStart] at hDigit
  cases hDigit

/- No sign begins a word or a number. -/
theorem apart_of_signKind?
    {c : Char}
    {kind : TokenKind}
    (hSign : signKind? c = some kind) :
    isWordStart c = false ∧ c.isDigit = false ∧
      isWordPart c = false := by
  unfold signKind? at hSign
  split at hSign <;> cases hSign <;> decide

/- A character of a word begins a word or is a digit. -/
theorem isWordPart_iff
    (c : Char) :
    isWordPart c = (isWordStart c || c.isDigit) := by
  unfold isWordPart isWordStart Char.isAlphanum
  exact Bool.or_right_comm _ _ _

/- Characters of gaps belong to no word and no number. -/
theorem apart_of_startsToken
    {c : Char}
    (hGap : startsToken c = false) :
    isWordPart c = false ∧ c.isDigit = false := by
  unfold startsToken at hGap
  rw [Bool.or_eq_false_iff] at hGap
  rw [isWordPart_iff]
  exact ⟨hGap.1, (Bool.or_eq_false_iff.mp hGap.1).2⟩

end Lexeme

end IntDecl

------------------------------------------------------------
-- Three Forms Of Lexemes
------------------------------------------------------------

namespace IntDecl

namespace Lexeme

/- A lexeme of a sign. -/
def ofSign (c : Char) (kind : TokenKind) : Lexeme where
  kind := kind
  text := String.ofList [c]

/- A whole word is of one of the two kinds of words. -/
theorem kind_ofWord_mem
    (word : List Char) :
    (ofWord word).kind ∈ [.intKeyword, .identifier] := by
  rw [ofWord]
  split <;> simp

/- A word is the keyword or a name. -/
theorem isValid_ofWord
    {word : List Char}
    (hWord : IsWord word) :
    (ofWord word).IsValid := by
  by_cases hInt : word = ['i', 'n', 't']
  · rw [ofWord, if_pos hInt, hInt]
    rfl
  · rw [ofWord, if_neg hInt]
    constructor
    · rw [String.toList_ofList]
      exact hWord
    · intro hText
      apply hInt
      have hChars := congrArg String.toList hText
      rwa [String.toList_ofList] at hChars

/- Valid lexemes are words, numbers and signs. -/
theorem isValid_iff
    (l : Lexeme) :
    l.IsValid ↔
      (∃ word, IsWord word ∧ l = ofWord word) ∨
        (∃ digits, Numeral.IsDigits digits ∧
          l = ofDigits digits) ∨
        (∃ c kind, signKind? c = some kind ∧
          l = ofSign c kind) := by
  constructor
  · intro hValid
    rcases l with ⟨kind, text⟩
    cases kind with
    | intKeyword =>
        left
        refine ⟨['i', 'n', 't'], by decide, ?_⟩
        exact congrArg (Lexeme.mk _) hValid
    | identifier =>
        left
        rcases hValid with ⟨hWord, hText⟩
        refine ⟨text.toList, hWord, ?_⟩
        have hOther : text.toList ≠ ['i', 'n', 't'] := by
          intro hChars
          apply hText
          exact String.toList_inj.mp hChars
        rw [ofWord, if_neg hOther, String.ofList_toList]
    | number =>
        right
        left
        refine ⟨text.toList, hValid, ?_⟩
        rw [ofDigits, String.ofList_toList]
    | assign =>
        exact .inr (.inr ⟨'=', .assign, rfl,
          congrArg (Lexeme.mk _) hValid⟩)
    | plus =>
        exact .inr (.inr ⟨'+', .plus, rfl,
          congrArg (Lexeme.mk _) hValid⟩)
    | multiply =>
        exact .inr (.inr ⟨'*', .multiply, rfl,
          congrArg (Lexeme.mk _) hValid⟩)
    | lparen =>
        exact .inr (.inr ⟨'(', .lparen, rfl,
          congrArg (Lexeme.mk _) hValid⟩)
    | rparen =>
        exact .inr (.inr ⟨')', .rparen, rfl,
          congrArg (Lexeme.mk _) hValid⟩)
    | semicolon =>
        exact .inr (.inr ⟨';', .semicolon, rfl,
          congrArg (Lexeme.mk _) hValid⟩)
    | endOfInput =>
        exact absurd hValid id
  · intro hForm
    rcases hForm with
      ⟨word, hWord, rfl⟩ | ⟨digits, hDigits, rfl⟩ |
        ⟨c, kind, hSign, rfl⟩
    · exact isValid_ofWord hWord
    · rw [IsValid, ofDigits, String.toList_ofList]
      exact hDigits
    · unfold signKind? at hSign
      split at hSign <;> cases hSign <;> rfl

/- The first character of a lexeme tells its form. -/
theorem exists_head_of_isValid
    {l : Lexeme}
    (hValid : l.IsValid) :
    ∃ c cs, l.text.toList = c :: cs ∧
      startsToken c = true ∧
      (isWordPart c = true ↔
        l.kind ∈ [.intKeyword, .identifier, .number]) ∧
      (c.isDigit = true ↔ l.kind = .number) := by
  rcases (isValid_iff l).mp hValid with
    ⟨word, hWord, rfl⟩ | ⟨digits, hDigits, rfl⟩ |
      ⟨c, kind, hSign, rfl⟩
  · cases word with
    | nil =>
        exact absurd hWord id
    | cons c word =>
        have hStart : isWordStart c = true := hWord.1
        refine ⟨c, word, by simp [ofWord], ?_⟩
        rw [startsToken, isWordPart_iff, hStart,
          isDigit_of_isWordStart hStart, ofWord]
        split <;> simp
  · rcases List.exists_cons_of_ne_nil hDigits.1 with
      ⟨c, digits, rfl⟩
    have hDigit : c.isDigit = true :=
      hDigits.2 c List.mem_cons_self
    refine ⟨c, digits, by simp [ofDigits], ?_⟩
    simp [startsToken, isWordPart_iff, hDigit, ofDigits]
  · refine ⟨c, [], by simp [ofSign], ?_⟩
    rcases apart_of_signKind? hSign with
      ⟨_, hDigit, hPart⟩
    rw [startsToken, hSign, hDigit, hPart, ofSign]
    unfold signKind? at hSign
    split at hSign <;> cases hSign <;> simp

/- Every character of a lexeme is one that begins a token. -/
theorem startsToken_of_isValid
    {l : Lexeme}
    (hValid : l.IsValid) :
    ∀ c ∈ l.text.toList, startsToken c = true := by
  rcases (isValid_iff l).mp hValid with
    ⟨word, hWord, rfl⟩ | ⟨digits, hDigits, rfl⟩ |
      ⟨sign, kind, hSign, rfl⟩
  · rw [ofWord, String.toList_ofList]
    cases word with
    | nil =>
        exact absurd hWord id
    | cons first word =>
        rw [List.forall_mem_cons]
        constructor
        · simp [startsToken, hWord.1]
        · intro c hMem
          have hPart := hWord.2 c hMem
          rw [isWordPart_iff] at hPart
          simp [startsToken, hPart]
  · rw [ofDigits, String.toList_ofList]
    intro c hMem
    simp [startsToken, hDigits.2 c hMem]
  · rw [ofSign, String.toList_ofList, List.forall_mem_cons]
    exact ⟨by simp [startsToken, hSign], by simp⟩

end Lexeme

end IntDecl

------------------------------------------------------------
-- Ends Of Lexemes
------------------------------------------------------------

namespace IntDecl

namespace Lexeme

/- The characters that a lexeme takes in at its end. -/
def absorbs (l : Lexeme) (c : Char) : Bool :=
  match l.kind with
  | .intKeyword | .identifier => isWordPart c
  | .number => c.isDigit
  | _ => false

/- A lexeme ends where a text begins. -/
def EndsBefore (l : Lexeme) (rest : List Char) : Prop :=
  ∀ c ∈ rest.head?, l.absorbs c = false

/- Words take in letters, digits and underscores. -/
theorem absorbs_of_word
    {l : Lexeme}
    (hWord : l.kind ∈ [.intKeyword, .identifier])
    (c : Char) :
    l.absorbs c = isWordPart c := by
  simp only [List.mem_cons, List.not_mem_nil, or_false]
    at hWord
  rcases hWord with hKind | hKind
  · rw [absorbs, hKind]
  · rw [absorbs, hKind]

/- A whole word takes in what every word does. -/
theorem absorbs_ofWord
    (word : List Char)
    (c : Char) :
    (ofWord word).absorbs c = isWordPart c :=
  absorbs_of_word (kind_ofWord_mem word) c

/- Numbers take in digits. -/
theorem absorbs_of_number
    {l : Lexeme}
    (hNumber : l.kind = .number)
    (c : Char) :
    l.absorbs c = c.isDigit := by
  rw [absorbs, hNumber]

/- Signs take in nothing. -/
theorem absorbs_ofSign
    {sign : Char}
    {kind : TokenKind}
    (hSign : signKind? sign = some kind)
    (c : Char) :
    (ofSign sign kind).absorbs c = false := by
  unfold signKind? at hSign
  split at hSign <;> cases hSign <;> rfl

/- Every lexeme ends where nothing follows. -/
theorem endsBefore_nil
    (l : Lexeme) :
    l.EndsBefore [] := by
  intro c hHead
  cases hHead

/- A lexeme ends before a gap that is not empty. -/
theorem endsBefore_gap
    (l : Lexeme)
    {gap rest : List Char}
    (hGap : IsGap gap)
    (hNonempty : gap ≠ []) :
    l.EndsBefore (gap ++ rest) := by
  rcases List.exists_cons_of_ne_nil hNonempty with
    ⟨first, others, rfl⟩
  intro c hHead
  cases hHead
  rcases apart_of_startsToken
      (hGap first List.mem_cons_self) with
    ⟨hWord, hDigit⟩
  unfold absorbs
  split
  · exact hWord
  · exact hWord
  · exact hDigit
  · rfl

/-
  A lexeme takes in the first character of another one if
  and only if the two run together.
-/
theorem endsBefore_iff_not_glues
    (l : Lexeme)
    {m : Lexeme}
    (hValid : m.IsValid)
    (rest : List Char) :
    l.EndsBefore (m.text.toList ++ rest) ↔ ¬ l.Glues m := by
  rcases exists_head_of_isValid hValid with
    ⟨c, cs, hText, _, hPart, hDigit⟩
  have hHead :
      l.EndsBefore (m.text.toList ++ rest) ↔
        l.absorbs c = false := by
    simp [EndsBefore, hText]
  rw [hHead, ← Bool.not_eq_true, not_congr]
  unfold absorbs Glues
  cases l.kind <;> simp [hPart, hDigit]

end Lexeme

end IntDecl

------------------------------------------------------------
-- Reading A Lexeme
------------------------------------------------------------

namespace IntDecl

namespace Lexeme

/-
  Reading finds a lexeme if and only if it is valid, stands at
  the front of the text and ends before what follows.
-/
theorem read?_eq_some_iff
    {cs rest : List Char}
    {l : Lexeme} :
    read? cs = some (l, rest) ↔
      cs = l.text.toList ++ rest ∧ l.IsValid ∧
        l.EndsBefore rest := by
  constructor
  · intro hRead
    refine ⟨(text_append_of_read? hRead).symm, ?_⟩
    cases cs with
    | nil =>
        cases hRead
    | cons c cs =>
        rw [isValid_iff]
        simp only [read?] at hRead
        split at hRead
        case isTrue hWord =>
          cases hRead
          constructor
          · left
            exact
              ⟨c :: cs.takeWhile isWordPart,
                ⟨hWord, Text.all_takeWhile _ _⟩, rfl⟩
          · intro d hHead
            rw [absorbs_ofWord]
            exact Text.head?_dropWhile _ _ d hHead
        case isFalse hWord =>
          split at hRead
          case isTrue hDigit =>
            cases hRead
            constructor
            · right
              left
              refine ⟨_, ⟨List.cons_ne_nil _ _, ?_⟩, rfl⟩
              rw [List.forall_mem_cons]
              exact ⟨hDigit, Text.all_takeWhile _ _⟩
            · exact Text.head?_dropWhile _ _
          case isFalse hDigit =>
            rw [Option.map_eq_some_iff] at hRead
            rcases hRead with ⟨kind, hSign, hEq⟩
            cases hEq
            constructor
            · right
              right
              exact ⟨c, kind, hSign, rfl⟩
            · intro d _
              exact absorbs_ofSign hSign d
  · intro hStands
    rcases hStands with ⟨hText, hValid, hEnds⟩
    subst hText
    rcases (isValid_iff l).mp hValid with
      ⟨word, hWord, rfl⟩ | ⟨digits, hDigits, rfl⟩ |
        ⟨c, kind, hSign, rfl⟩
    · cases word with
      | nil =>
          exact absurd hWord id
      | cons c word =>
          rcases hWord with ⟨hStart, hParts⟩
          have hRest :
              ∀ d ∈ rest.head?, isWordPart d = false := by
            intro d hHead
            rw [← absorbs_ofWord (c :: word)]
            exact hEnds d hHead
          simp only [ofWord, String.toList_ofList,
            List.cons_append, read?]
          rw [if_pos hStart, Text.takeWhile_run hParts hRest,
            Text.dropWhile_run hParts hRest]
    · rcases hDigits with ⟨hNonempty, hAll⟩
      rcases List.exists_cons_of_ne_nil hNonempty with
        ⟨c, digits, rfl⟩
      rw [List.forall_mem_cons] at hAll
      rcases hAll with ⟨hFirst, hParts⟩
      have hStart : ¬ isWordStart c = true := by
        simp [isWordStart_of_isDigit hFirst]
      simp only [ofDigits, String.toList_ofList,
        List.cons_append, read?]
      rw [if_neg hStart, if_pos hFirst,
        Text.takeWhile_run hParts hEnds,
        Text.dropWhile_run hParts hEnds]
    · rcases apart_of_signKind? hSign with
        ⟨hStart, hDigit, _⟩
      simp [ofSign, read?, hStart, hDigit, hSign]

end Lexeme

end IntDecl
