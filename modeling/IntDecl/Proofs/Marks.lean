import IntDecl.Proofs.Acceptance
import IntDecl.Proofs.Excerpts
import IntDecl.Proofs.Session

/-
  This file says where the mark of a report stands.

  A report is made of lines: the message, the place, the
  source line, and the mark. The mark has one sign for each
  character of the token that was found, and it is indented
  by the bytes in front of the token. So it stands under the
  token exactly if each character in front of the token on
  its line takes one byte.

  Key definitions include:
    * `Text.Marks`

  Key theorems include:
    * `Text.lineFeed_not_mem_quote`
    * `SyntaxError.pieces_report`
    * `Text.byteLength_eq_length_iff`
    * `Span.marker_eq`
    * `SyntaxError.report_marks_iff`
-/

------------------------------------------------------------
-- Texts On One Line
------------------------------------------------------------

namespace IntDecl

namespace Text

/- A quoted character is written without a line feed. -/
theorem lineFeed_not_mem_escape
    (c : Char) :
    '\n' ∉ escape c := by
  have hDigits :=
    lineFeed_not_mem_toDigits (by decide : 1 < 16) c.toNat
  unfold escape
  split_ifs with _ _ hFeed
  case neg =>
    -- The line feed has a form of its own.
    rw [List.mem_singleton]
    exact Ne.symm hFeed
  all_goals simp [hDigits]

/- A quoted text takes one line. -/
theorem lineFeed_not_mem_quote
    (s : String) :
    '\n' ∉ (quote s).toList := by
  simp [quote, lineFeed_not_mem_escape]

/- Parts on one line are joined on one line. -/
theorem lineFeed_not_mem_intercalate
    {separator : List Char}
    {parts : List (List Char)}
    (hSeparator : '\n' ∉ separator)
    (hParts : ∀ part ∈ parts, '\n' ∉ part) :
    '\n' ∉ separator.intercalate parts := by
  induction parts with
  | nil =>
      simp
  | cons part parts ih =>
      rw [List.forall_mem_cons] at hParts
      cases parts with
      | nil =>
          rw [List.intercalate_singleton]
          exact hParts.1
      | cons next parts =>
          rw [List.intercalate_cons_cons]
          simp only [List.mem_append, not_or]
          exact ⟨⟨hParts.1, hSeparator⟩, ih hParts.2⟩

end Text

namespace SyntaxError

/- The message of an error takes one line. -/
theorem lineFeed_not_mem_message
    (e : SyntaxError) :
    '\n' ∉ e.message.toList := by
  have hName : ∀ k : TokenKind, '\n' ∉ k.name.toList := by
    intro k
    cases k <;> decide +kernel
  have hFinding : '\n' ∉ e.finding.toList := by
    unfold finding
    split
    · exact hName _
    · simp only [String.toList_append, List.mem_append,
        not_or]
      exact
        ⟨⟨hName _, by decide +kernel⟩,
          Text.lineFeed_not_mem_quote _⟩
  have hExpected :
      '\n' ∉ (" or ".intercalate
        (e.expected.map TokenKind.name)).toList := by
    rw [String.toList_intercalate]
    apply
      Text.lineFeed_not_mem_intercalate (by decide +kernel)
    rw [List.map_map, List.forall_mem_map]
    intro k _
    exact hName k
  change '\n' ∉ ("syntax error: expected " ++
    " or ".intercalate (e.expected.map TokenKind.name) ++
    ", found " ++ e.finding).toList
  simp only [String.toList_append, List.mem_append, not_or]
  exact
    ⟨⟨⟨by decide +kernel, hExpected⟩, by decide +kernel⟩,
      hFinding⟩

/- A report is the message, a snippet, and what follows. -/
theorem pieces_report
    (e : SyntaxError)
    (src : String) :
    Text.pieces (e.report src).toList =
      e.message.toList :: (e.span.heading src).toList ::
        (e.span.excerpt src).toList ::
        (e.span.marker src).toList ::
        Text.pieces e.openPhrases.toList := by
  have hText :
      (e.report src).toList =
        e.message.toList ++ ('\n' ::
          ((e.span.snippet src).toList ++
            e.openPhrases.toList)) := by
    simp [report]
  rw [hText, Text.pieces_line e.lineFeed_not_mem_message,
    Span.pieces_snippet]

end SyntaxError

end IntDecl

------------------------------------------------------------
-- Bytes And Characters
------------------------------------------------------------

namespace IntDecl

namespace Text

/- A text takes a byte for each character, or more. -/
theorem length_le_byteLength
    (cs : List Char) :
    cs.length ≤ byteLength cs := by
  induction cs with
  | nil =>
      exact Nat.le_refl 0
  | cons c cs ih =>
      have hPositive := c.utf8Size_pos
      rw [List.length_cons, byteLength_cons]
      omega

/-
  Bytes and characters are as many exactly if each character
  takes one byte.
-/
theorem byteLength_eq_length_iff
    {cs : List Char} :
    byteLength cs = cs.length ↔
      ∀ c ∈ cs, c.utf8Size = 1 := by
  induction cs with
  | nil =>
      simp
  | cons c cs ih =>
      have hPositive := c.utf8Size_pos
      have hLess := length_le_byteLength cs
      rw [List.forall_mem_cons, ← ih, List.length_cons,
        byteLength_cons]
      omega

end Text

namespace Lexeme

/- A lexeme takes as many bytes as it has characters. -/
theorem size_eq_length
    {l : Lexeme}
    (hValid : l.IsValid) :
    l.size = l.text.toList.length := by
  rw [size, Text.byteLength_eq_length_iff]
  intro c hMem
  have hStarts := startsToken_of_isValid hValid c hMem
  have hCode := (toNat_of_startsToken hStarts).2
  rw [Char.utf8Size_eq_one_iff, UInt32.le_iff_toNat_le]
  exact hCode.trans (by decide)

end Lexeme

end IntDecl

------------------------------------------------------------
-- Marks
------------------------------------------------------------

namespace IntDecl

namespace Text

/-
  A line marks a text behind some characters when it has as
  many characters in front of its first mark, and one mark
  for each character of the text.
-/
def Marks (marked front text : List Char) : Prop :=
  (marked.takeWhile (· ≠ '~')).length = front.length ∧
    marked.count '~' = text.length

instance (marked front text : List Char) :
    Decidable (Marks marked front text) := by
  unfold Marks
  infer_instance

end Text

namespace Span

/-
  The mark of a span that is not empty has one sign for each
  byte, behind as many spaces as the label has characters and
  the column has bytes.
-/
theorem marker_eq
    {s : Span}
    (hNonempty : 0 < s.length)
    (src : String) :
    (s.marker src).toList =
      List.replicate
          ((s.label src).length +
            (s.location src).column) ' ' ++
        List.replicate s.length '~' := by
  have hSome : s.isEmpty = false := by
    rw [isEmpty, beq_eq_false_iff_ne]
    omega
  have hLabel :
      (s.label src).length =
        (toString (s.location src).line).length + 3 := by
    rw [label, String.length_toList, String.length_append]
    rfl
  simp only [marker, hSome, String.toList_ofList, hLabel,
    Bool.false_eq_true, if_false]
  rw [← List.append_assoc, List.replicate_append_replicate]

/-
  The mark of a span that is not empty begins behind its
  label and its column.
-/
theorem length_takeWhile_marker
    {s : Span}
    (hNonempty : 0 < s.length)
    (src : String) :
    ((s.marker src).toList.takeWhile (· ≠ '~')).length =
      (s.label src).length + (s.location src).column := by
  rw [marker_eq hNonempty, Text.takeWhile_run,
    List.length_replicate]
  · intro c hMem
    rw [List.eq_of_mem_replicate hMem]
    rfl
  · intro c hHead
    rw [List.eq_of_mem_replicate (List.mem_of_mem_head? hHead)]
    rfl

/- The mark of a span has one sign for each byte of it. -/
theorem count_marker
    {s : Span}
    (hNonempty : 0 < s.length)
    (src : String) :
    (s.marker src).toList.count '~' = s.length := by
  rw [marker_eq hNonempty, List.count_append,
    List.count_replicate_self, List.count_replicate]
  exact Nat.zero_add s.length

end Span

end IntDecl

------------------------------------------------------------
-- Marks Of Reports
------------------------------------------------------------

namespace IntDecl

/- A token that does not fit is one of the source. -/
theorem mem_body_of_compile_eq_error
    {options : Options}
    {src : String}
    {e : SyntaxError}
    (hFailed : compile options src = .error e)
    (hFound : e.found.kind ≠ .endOfInput) :
    e.found ∈ (TokenSequence.ofSource src).body := by
  have hError :
      (Parser.run [.phrase .program]
        (Parser.before (.ofSource src) 0)).error? =
          some e :=
    compile_eq_error_iff.mp hFailed
  have hPlace :=
    (Parser.getElem?_cursor_of_error? (Nat.zero_le _)
      hError).1
  have hMem := List.mem_of_getElem? hPlace
  rw [TokenSequence.tokens, List.mem_append,
    List.mem_singleton] at hMem
  rcases hMem with hBody | hMarker
  · exact hBody
  · rw [hMarker] at hFound
    exact absurd rfl hFound

namespace SyntaxError

/-
  In the report on a source that fails at a token, the source
  line is shown with the token in it, and the line below has
  one mark for each character of the token. The marks stand
  under the token exactly if all characters in front of it on
  its line take one byte.
-/
theorem report_marks_iff
    {options : Options}
    {src : String}
    {e : SyntaxError}
    (hFailed : compile options src = .error e)
    (hFound : e.found.kind ≠ .endOfInput) :
    ∃ front back marked,
      let place := e.span.location src
      let lines := Text.pieces (e.report src).toList
      let text := e.found.text.toList
      let shown := e.span.label src ++ front
      (Text.pieces src.toList)[place.line - 1]? =
          some (front ++ (text ++ back)) ∧
        Text.byteLength front = place.column ∧
        lines[2]? =
          some (shown ++ (text ++ Text.trimEnd back)) ∧
        lines[3]? = some marked ∧
        marked.count '~' = text.length ∧
        (Text.Marks marked shown text ↔
          ∀ c ∈ front, c.utf8Size = 1) := by
  have hMem := mem_body_of_compile_eq_error hFailed hFound
  have hValid : e.found.toLexeme.IsValid :=
    TokenStream.isValid_of_mem_remaining _ e.found hMem
  rcases TokenSequence.exists_around_of_mem hMem with
    ⟨_, _, _, hSpan⟩
  have hLength :
      e.span.length = e.found.text.toList.length := by
    rw [← Lexeme.size_eq_length hValid]
    exact congrArg Span.length hSpan
  have hNonempty : 0 < e.span.length := by
    rw [hLength, ← Lexeme.size_eq_length hValid]
    exact Lexeme.size_pos_of_isValid hValid
  rcases TokenSequence.exists_line_of_mem hMem with
    ⟨front, back, hPiece, hColumn⟩
  have hCount :
      (e.span.marker src).toList.count '~' =
        e.found.text.toList.length := by
    rw [Span.count_marker hNonempty, hLength]
  refine
    ⟨front, back, (e.span.marker src).toList, hPiece,
      hColumn, ?_, ?_, hCount, ?_⟩
  · rw [pieces_report, List.append_assoc,
      ← TokenSequence.trimEnd_line_of_mem hMem]
    exact congrArg some (Span.toList_excerpt hPiece)
  · rw [pieces_report]
    rfl
  · have hColumns :
        Text.byteLength front = (e.span.location src).column :=
      hColumn
    rw [Text.Marks, and_iff_left hCount,
      Span.length_takeWhile_marker hNonempty,
      List.length_append, ← hColumns, Nat.add_left_cancel_iff,
      Text.byteLength_eq_length_iff]

/-
  The second line fails behind blanks and signs of one byte;
  the letter of two bytes is on the line before.
-/
theorem report_marks_on_second_line :
    let src := "int é\n x\t= 2 +;"
    let e : SyntaxError :=
      { expected := [.number, .lparen]
        found := ⟨⟨.semicolon, ";"⟩, ⟨15, 1⟩⟩
        stack := ["Program", "Expression", "Term", "Factor"] }
    let lines := Text.pieces (e.report src).toList
    let text := ";".toList
    compile {} src = .error e ∧
      e.found.kind ≠ .endOfInput ∧
      e.span.location src = ⟨2, 8⟩ ∧
      ∃ front back marked,
        (Text.pieces src.toList)[1]? =
            some (front ++ (text ++ back)) ∧
          Text.byteLength front = 8 ∧
          lines[3]? = some marked ∧
          marked.count '~' = text.length ∧
          (Text.Marks marked (e.span.label src ++ front) text ↔
            ∀ c ∈ front, c.utf8Size = 1) := by
  intro src e lines text
  have hFailed : compile {} src = .error e := by
    rw [compile_eq_error_iff]
    decide +kernel
  have hFound : e.found.kind ≠ .endOfInput := by
    decide
  have hPlace : e.span.location src = ⟨2, 8⟩ := by
    decide +kernel
  rcases report_marks_iff hFailed hFound with
    ⟨front, back, marked, hPiece, hColumn, _, hMark, hCount,
      hAligned⟩
  rw [hPlace] at hPiece hColumn
  exact
    ⟨hFailed, hFound, hPlace, front, back, marked, hPiece,
      hColumn, hMark, hCount, hAligned⟩

/-
  Behind a letter of two bytes the mark stands beside the
  token.
-/
theorem not_marks_behind_wide :
    let src := "int é = 1;"
    let e : SyntaxError :=
      { expected := [.identifier]
        found := ⟨⟨.assign, "="⟩, ⟨7, 1⟩⟩
        stack := ["Program"] }
    let lines := Text.pieces (e.report src).toList
    compile {} src = .error e ∧
      lines[2]? =
        some ("1 | int é ".toList ++
          ("=".toList ++ " 1;".toList)) ∧
      lines[3]? = some "           ~".toList ∧
      ¬ Text.Marks "           ~".toList
          "1 | int é ".toList "=".toList := by
  intro src e lines
  have hFailed : compile {} src = .error e := by
    rw [compile_eq_error_iff]
    decide +kernel
  have hExcerpt :
      (e.span.excerpt src).toList =
        "1 | int é ".toList ++ ("=".toList ++ " 1;".toList) := by
    decide +kernel
  have hMarker :
      (e.span.marker src).toList = "           ~".toList := by
    decide +kernel
  have hLines : lines = _ := pieces_report e src
  refine ⟨hFailed, ?_, ?_, by decide +kernel⟩
  · rw [hLines]
    exact congrArg some hExcerpt
  · rw [hLines]
    exact congrArg some hMarker

end SyntaxError

end IntDecl
