import Mathlib.Data.List.DropRight
import IntDecl.Proofs.Accounting
import IntDecl.Proofs.Coordinates
import IntDecl.Span.Snippet

/-
  This file shows that a snippet holds the line that it
  names.

  The line that is shown is the piece of the source at the
  number of the line, without the blanks at its end. This is
  so although lines are told apart from pieces: a line has
  lost a carriage return, and an empty piece at the end of a
  source is no line. A token of the source stands in its
  piece at its column, and trimming leaves it as it is.

  Key definitions include:
    * `Span.label`

  Key theorems include:
    * `Text.trimEnd_append`
    * `Text.trimEnd_getD_lines`
    * `Span.pieces_snippet`
    * `TokenSequence.exists_line_of_mem`
    * `Span.snippet_shows_line`
-/

------------------------------------------------------------
-- Trimming
------------------------------------------------------------

namespace IntDecl

namespace Text

/- Trimming drops characters at the end while they are blank. -/
theorem trimEnd_eq_rdropWhile
    (cs : List Char) :
    trimEnd cs = cs.rdropWhile isBlank := rfl

/- A text is what trimming leaves of it and blanks. -/
theorem exists_eq_trimEnd_append
    (cs : List Char) :
    ∃ blanks, cs = trimEnd cs ++ blanks ∧
      ∀ c ∈ blanks, isBlank c = true := by
  refine ⟨cs.rtakeWhile isBlank, ?_, ?_⟩
  · rw [trimEnd_eq_rdropWhile,
      List.rdropWhile_append_rtakeWhile]
  · intro c hMem
    exact List.mem_rtakeWhile_imp hMem

/- What trimming leaves does not end with a blank. -/
theorem isBlank_of_mem_getLast?_trimEnd
    (cs : List Char) :
    ∀ c ∈ (trimEnd cs).getLast?, isBlank c = false := by
  intro c hLast
  have hNonempty : trimEnd cs ≠ [] := by
    intro hEmpty
    rw [hEmpty] at hLast
    cases hLast
  have hBlank :=
    List.rdropWhile_last_not isBlank cs hNonempty
  rw [List.getLast?_eq_some_getLast hNonempty] at hLast
  cases hLast
  exact Bool.eq_false_iff.mpr hBlank

/- A text that does not end with a blank stays as it is. -/
theorem trimEnd_eq_self
    {cs : List Char}
    (hLast : ∀ c ∈ cs.getLast?, isBlank c = false) :
    trimEnd cs = cs := by
  rw [trimEnd_eq_rdropWhile, List.rdropWhile_eq_self_iff]
  intro hNonempty
  rw [hLast _ (List.getLast?_eq_some_getLast hNonempty)]
  exact Bool.false_ne_true

/- Behind a text that stays, the rest is trimmed. -/
theorem trimEnd_append
    {first : List Char}
    (hFirst : trimEnd first = first)
    (second : List Char) :
    trimEnd (first ++ second) = first ++ trimEnd second := by
  rw [trimEnd, List.reverse_append, List.dropWhile_append]
  split
  case isTrue hEmpty =>
    have hSecond : trimEnd second = [] := by
      rw [trimEnd, List.isEmpty_iff.mp hEmpty,
        List.reverse_nil]
    rw [hSecond, List.append_nil]
    exact hFirst
  case isFalse =>
    rw [List.reverse_append, List.reverse_reverse]
    rfl

/- A carriage return at the end is a blank like others. -/
theorem trimEnd_dropReturn
    (piece : List Char) :
    trimEnd (dropReturn piece) = trimEnd piece := by
  unfold dropReturn
  split
  case isTrue hReturn =>
    have hPiece : piece.dropLast ++ ['\r'] = piece :=
      List.dropLast_append_getLast? '\r' hReturn
    have hTrim :
        trimEnd (piece.dropLast ++ ['\r']) =
          trimEnd piece.dropLast :=
      List.rdropWhile_concat_pos isBlank _ _ rfl
    rw [← hTrim, hPiece]
  case isFalse =>
    rfl

end Text

end IntDecl

------------------------------------------------------------
-- Lines And Pieces
------------------------------------------------------------

namespace IntDecl

namespace Text

/- The lines of a text, told from its pieces. -/
theorem lines_eq
    {cs last : List Char}
    {others : List (List Char)}
    (hPieces : pieces cs = others ++ [last]) :
    lines cs =
      others.map dropReturn ++ [last].filter (· ≠ []) := by
  rw [lines, hPieces, List.dropLast_concat,
    List.getLast?_concat]
  rfl

/-
  Trimmed, the line at a number is the piece there. For the
  number behind the last line the piece is empty.
-/
theorem trimEnd_getD_lines
    {cs piece : List Char}
    {i : Nat}
    (hPiece : (pieces cs)[i]? = some piece) :
    trimEnd ((lines cs)[i]?.getD []) = trimEnd piece := by
  rcases List.eq_nil_or_concat' (pieces cs) with
    hNil | ⟨others, last, hPieces⟩
  · rw [hNil] at hPiece
    cases hPiece
  · rw [lines_eq hPieces]
    rw [hPieces] at hPiece
    by_cases hEarlier : i < others.length
    · rw [List.getElem?_append_left hEarlier] at hPiece
      rw [List.getElem?_append_left
          (by rwa [List.length_map]),
        List.getElem?_map, hPiece]
      exact trimEnd_dropReturn piece
    · -- The last piece is left out of the lines if empty.
      rw [List.getElem?_append_right (by omega),
        List.getElem?_singleton,
        Option.ite_none_right_eq_some, Option.some_inj]
        at hPiece
      rcases hPiece with ⟨hLast, rfl⟩
      rw [List.getElem?_append_right
          (by rw [List.length_map]; omega),
        List.length_map, hLast]
      by_cases hEmpty : last = []
      · rw [hEmpty]
        rfl
      · rw [List.filter_eq_self.mpr (by simpa using hEmpty)]
        rfl

end Text

namespace Span

/-
  The line that a snippet shows is the piece at the number of
  the line, without the blanks at its end.
-/
theorem sourceLine_eq
    {s : Span}
    {src : String}
    {piece : List Char}
    (hPiece :
      (Text.pieces src.toList)[(s.location src).line - 1]? =
        some piece) :
    s.sourceLine src = Text.trimEnd piece :=
  Text.trimEnd_getD_lines hPiece

/- What stands in front of a source line in a snippet. -/
def label (s : Span) (src : String) : List Char :=
  (toString (s.location src).line ++ " | ").toList

/- The source line in a snippet is the piece, trimmed. -/
theorem toList_excerpt
    {s : Span}
    {src : String}
    {piece : List Char}
    (hPiece :
      (Text.pieces src.toList)[(s.location src).line - 1]? =
        some piece) :
    (s.excerpt src).toList =
      s.label src ++ Text.trimEnd piece := by
  rw [excerpt, sourceLine_eq hPiece, String.toList_append,
    String.toList_ofList]
  rfl

end Span

end IntDecl

------------------------------------------------------------
-- The Lines Of A Snippet
------------------------------------------------------------

namespace IntDecl

namespace Text

/- A line that ends with a line feed is the first piece. -/
theorem pieces_line
    {line : List Char}
    (hLine : '\n' ∉ line)
    (rest : List Char) :
    pieces (line ++ ('\n' :: rest)) = line :: pieces rest :=
  List.splitOn_append_cons_self_of_not_mem hLine rest

/- A number is written on one line, in any base. -/
theorem lineFeed_not_mem_toDigits
    {base : Nat}
    (hBase : 1 < base)
    (n : Nat) :
    '\n' ∉ Nat.toDigits base n := by
  have hDigit :
      ∀ digit : Nat, '\n' ∉ [digit.digitChar] := by
    intro digit hMem
    exact
      Nat.digitChar_ne '\n' rfl (List.mem_singleton.mp hMem).symm
  induction n using Nat.strongRecOn with
  | ind n ih =>
      rw [Nat.toDigits_eq_if hBase]
      split
      case isTrue =>
        exact hDigit n
      case isFalse hMore =>
        rw [List.mem_append, not_or]
        have hLess : n / base < n :=
          Nat.div_lt_self (by omega) hBase
        exact ⟨ih _ hLess, hDigit _⟩

end Text

namespace Span

variable (s : Span) (src : String)

/- The place is shown on one line. -/
theorem lineFeed_not_mem_heading :
    '\n' ∉ (s.heading src).toList := by
  have hBase : 1 < 10 := by decide
  simp [heading, Text.lineFeed_not_mem_toDigits hBase]

/- The source line is shown on one line. -/
theorem lineFeed_not_mem_excerpt :
    '\n' ∉ (s.excerpt src).toList := by
  rcases s.exists_piece_of_location src with
    ⟨piece, _, hPiece, _⟩
  rcases Text.exists_eq_trimEnd_append piece with
    ⟨blanks, hBlanks, _⟩
  have hLine : '\n' ∉ piece :=
    Text.lineFeed_not_mem_of_mem_pieces
      (List.mem_of_getElem? hPiece)
  rw [hBlanks, List.mem_append, not_or] at hLine
  have hBase : 1 < 10 := by decide
  simp [excerpt, sourceLine_eq hPiece,
    Text.lineFeed_not_mem_toDigits hBase, hLine.1]

/- The mark takes one line. -/
theorem lineFeed_not_mem_marker :
    '\n' ∉ (s.marker src).toList := by
  simp only [marker, String.toList_ofList]
  split
  · simp
  · simp

/- A snippet takes three lines of what it is shown in. -/
theorem pieces_snippet
    (rest : List Char) :
    Text.pieces ((s.snippet src).toList ++ rest) =
      (s.heading src).toList :: (s.excerpt src).toList ::
        (s.marker src).toList :: Text.pieces rest := by
  have hText :
      (s.snippet src).toList ++ rest =
        (s.heading src).toList ++ ('\n' ::
          ((s.excerpt src).toList ++ ('\n' ::
            ((s.marker src).toList ++ ('\n' :: rest))))) := by
    simp [snippet]
  rw [hText, Text.pieces_line (s.lineFeed_not_mem_heading src),
    Text.pieces_line (s.lineFeed_not_mem_excerpt src),
    Text.pieces_line (s.lineFeed_not_mem_marker src)]

end Span

end IntDecl

------------------------------------------------------------
-- Tokens In Their Lines
------------------------------------------------------------

namespace IntDecl

namespace Text

/- A text without line feeds goes on with the first piece. -/
theorem pieces_append_of_not_mem
    {first second piece : List Char}
    {others : List (List Char)}
    (hFirst : '\n' ∉ first)
    (hSecond : pieces second = piece :: others) :
    pieces (first ++ second) = (first ++ piece) :: others := by
  induction first with
  | nil =>
      exact hSecond
  | cons c first ih =>
      rw [List.mem_cons, not_or] at hFirst
      exact pieces_cons (Ne.symm hFirst.1) (ih hFirst.2)

end Text

namespace Lexeme

/- No part of a lexeme is blank. -/
theorem isBlank_of_mem_text
    {l : Lexeme}
    (hValid : l.IsValid) :
    ∀ c ∈ l.text.toList, Text.isBlank c = false := by
  intro c hMem
  exact (isBlank_and_isJunk_of_isValid hValid c hMem).1

end Lexeme

namespace TokenSequence

/-
  A token of a source stands in the piece at its line, at its
  column.
-/
theorem exists_line_of_mem
    {src : String}
    {token : Token}
    (hMem : token ∈ (ofSource src).body) :
    let place := token.span.location src
    ∃ front back,
      (Text.pieces src.toList)[place.line - 1]? =
          some (front ++ (token.text.toList ++ back)) ∧
        Text.byteLength front = place.column := by
  intro place
  rcases exists_around_of_mem hMem with
    ⟨before, after, hSource, hSpan⟩
  have hValid : token.toLexeme.IsValid :=
    TokenStream.isValid_of_mem_remaining _ token hMem
  have hText : '\n' ∉ token.text.toList := by
    intro hFeed
    have hBlank :=
      Lexeme.isBlank_of_mem_text hValid _ hFeed
    exact absurd hBlank (by decide)
  rcases Text.exists_pieces_append before
      (token.text.toList ++ after) with
    ⟨earlier, front, piece, later, hFront, hPiece, hBoth⟩
  rcases Text.exists_pieces_eq_cons after with
    ⟨back, others, hBack⟩
  rw [Text.pieces_append_of_not_mem hText hBack] at hPiece
  cases hPiece
  have hPlace :
      place =
        ⟨earlier.length + 1, Text.byteLength front⟩ := by
    rw [← Location.after_eq hFront,
      ← Text.takeBytes_byteLength before
        (token.text.toList ++ after), ← hSource]
    exact congrArg
      (fun span => Span.location span src) hSpan
  refine ⟨front, back, ?_, ?_⟩
  · rw [hSource, hBoth, hPlace, Nat.add_sub_cancel,
      List.getElem?_append_right (Nat.le_refl _),
      Nat.sub_self]
    rfl
  · rw [hPlace]

/-
  Trimming leaves a token of a source in its piece as it is,
  and trims what stands behind it.
-/
theorem trimEnd_line_of_mem
    {src : String}
    {token : Token}
    (hMem : token ∈ (ofSource src).body)
    (front back : List Char) :
    Text.trimEnd (front ++ (token.text.toList ++ back)) =
      front ++ (token.text.toList ++ Text.trimEnd back) := by
  have hValid : token.toLexeme.IsValid :=
    TokenStream.isValid_of_mem_remaining _ token hMem
  rcases Lexeme.exists_head_of_isValid hValid with
    ⟨first, others, hText, _⟩
  have hStays :
      Text.trimEnd (front ++ token.text.toList) =
        front ++ token.text.toList := by
    apply Text.trimEnd_eq_self
    intro c hLast
    apply Lexeme.isBlank_of_mem_text hValid
    rw [hText] at hLast ⊢
    rw [List.getLast?_append_cons] at hLast
    exact List.mem_of_mem_getLast? hLast
  rw [← List.append_assoc, Text.trimEnd_append hStays,
    List.append_assoc]

end TokenSequence

namespace Span

/-
  The second line of a snippet is the number of a line, a bar,
  and the piece of the source with that number, without the
  blanks at its end. The piece is always there; a token of
  the source stands in it at its column, and what is left of
  the piece holds all of the token.
-/
theorem snippet_shows_line
    (src : String)
    (s : Span) :
    ∃ shown blanks,
      let place := s.location src
      1 ≤ place.line ∧
        (Text.pieces src.toList)[place.line - 1]? =
          some (shown ++ blanks) ∧
        (∀ c ∈ blanks, Text.isBlank c = true) ∧
        (∀ c ∈ shown.getLast?, Text.isBlank c = false) ∧
        (Text.pieces (s.snippet src).toList)[1]? =
          some
            ((toString place.line ++ " | ").toList ++
              shown) ∧
        ∀ token ∈ (TokenSequence.ofSource src).body,
          token.span = s →
            ∃ front back,
              shown = front ++ (token.text.toList ++ back) ∧
                Text.byteLength front = place.column := by
  rcases s.exists_piece_of_location src with
    ⟨piece, hLine, hPiece, _⟩
  rcases Text.exists_eq_trimEnd_append piece with
    ⟨blanks, hBlanks, hAllBlank⟩
  refine
    ⟨Text.trimEnd piece, blanks, hLine, ?_, hAllBlank,
      Text.isBlank_of_mem_getLast?_trimEnd piece, ?_, ?_⟩
  · rw [hPiece, ← hBlanks]
  · have hLines := s.pieces_snippet src []
    rw [List.append_nil] at hLines
    rw [hLines, List.getElem?_cons_succ,
      List.getElem?_cons_zero, toList_excerpt hPiece]
    rfl
  · intro token hMem hSpan
    rcases TokenSequence.exists_line_of_mem hMem with
      ⟨front, back, hWhole, hColumn⟩
    rw [hSpan] at hWhole hColumn
    rw [hPiece, Option.some_inj] at hWhole
    refine ⟨front, Text.trimEnd back, ?_, hColumn⟩
    rw [hWhole, TokenSequence.trimEnd_line_of_mem hMem]

/-
  A number behind a character of two bytes, in a line that
  ends with blanks and comes after one with a carriage return.
-/
theorem snippet_shows_line_between_wide :
    let src := "a\r\né1 🦀 \t\n"
    let token : Token := ⟨⟨.number, "1"⟩, ⟨5, 1⟩⟩
    token ∈ (TokenSequence.ofSource src).body ∧
      token.span.location src = ⟨2, 2⟩ ∧
      ∃ shown blanks,
        (Text.pieces src.toList)[1]? =
            some (shown ++ blanks) ∧
          (∀ c ∈ blanks, Text.isBlank c = true) ∧
          (∀ c ∈ shown.getLast?, Text.isBlank c = false) ∧
          (Text.pieces (token.span.snippet src).toList)[1]? =
            some ("2 | ".toList ++ shown) ∧
          ∃ front back,
            shown = front ++ (token.text.toList ++ back) ∧
              Text.byteLength front = 2 := by
  intro src token
  have hMem :
      token ∈ (TokenSequence.ofSource src).body := by
    decide +kernel
  have hPlace : token.span.location src = ⟨2, 2⟩ := by
    decide +kernel
  rcases snippet_shows_line src token.span with
    ⟨shown, blanks, _, hPiece, hBlanks, hEnd, hLine, hToken⟩
  rw [hPlace] at hPiece hLine hToken
  exact
    ⟨hMem, hPlace, shown, blanks, hPiece, hBlanks, hEnd,
      hLine, hToken token hMem rfl⟩

end Span

end IntDecl
