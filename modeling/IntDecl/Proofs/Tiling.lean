import Mathlib.Data.String.Basic
import IntDecl.Proofs.Placement

/-
  This file shows that the tokens of a source and the gaps
  between them tile the source.

  Each token is the part of the source that its span takes,
  and the spans hold exactly the characters with which tokens
  can begin.

  Key definitions include:
    * `Text.indexed`
    * `Span.slice?`
    * `Token.Cover`

  Key theorems include:
    * `Span.slice?_eq_some`
    * `Token.cover_place_iff`
    * `TokenSequence.ofSource_tiles`
-/

------------------------------------------------------------
-- Positions Of Characters
------------------------------------------------------------

namespace IntDecl

namespace Text

/- The characters of a text, each with its byte position. -/
def indexed : Nat → List Char → List (Nat × Char)
| _, [] => []
| offset, c :: cs =>
    (offset, c) :: indexed (offset + c.utf8Size) cs

/- Positions in a second text go on behind the first. -/
theorem indexed_append
    (offset : Nat)
    (first second : List Char) :
    indexed offset (first ++ second) =
      indexed offset first ++
        indexed (offset + byteLength first) second := by
  induction first generalizing offset with
  | nil =>
      rfl
  | cons c first ih =>
      rw [List.cons_append, indexed, indexed, ih,
        byteLength_cons, List.cons_append, Nat.add_assoc]

/- A character stands within the bytes of its text. -/
theorem bounds_of_mem_indexed
    {entry : Nat × Char}
    {offset : Nat}
    {cs : List Char}
    (hMem : entry ∈ indexed offset cs) :
    entry.2 ∈ cs ∧ offset ≤ entry.1 ∧
      entry.1 < offset + byteLength cs := by
  induction cs generalizing offset with
  | nil =>
      cases hMem
  | cons c cs ih =>
      have hPositive := c.utf8Size_pos
      rw [byteLength_cons]
      rcases List.mem_cons.mp hMem with hFirst | hLater
      · rw [hFirst]
        exact ⟨List.mem_cons_self, by omega, by omega⟩
      · rcases ih hLater with ⟨hChar, hLower, hUpper⟩
        exact
          ⟨List.mem_cons_of_mem _ hChar, by omega, by omega⟩

/- Bytes are counted as those of a string. -/
theorem byteLength_eq_utf8Len
    (cs : List Char) :
    byteLength cs = String.utf8Len cs := by
  induction cs with
  | nil =>
      rfl
  | cons c cs ih =>
      rw [byteLength_cons, String.utf8Len_cons, ih,
        Nat.add_comm]

/- The bytes of a string are those of its characters. -/
theorem byteLength_toList
    (s : String) :
    byteLength s.toList = s.utf8ByteSize := by
  rw [byteLength_eq_utf8Len, ← String.utf8ByteSize_ofList,
    String.ofList_toList]

/- A source is divided between two of its characters. -/
theorem isValid_byteLength
    {src : String}
    {before after : List Char}
    (hSource : src.toList = before ++ after) :
    String.Pos.Raw.IsValid src ⟨byteLength before⟩ := by
  rw [String.Pos.Raw.isValid_iff_exists_append]
  refine
    ⟨String.ofList before, String.ofList after, ?_, ?_⟩
  · rw [← String.ofList_append, ← hSource,
      String.ofList_toList]
  · rw [String.rawEndPos_ofList, byteLength_eq_utf8Len]

/- Where a source can be divided, it has two parts. -/
theorem exists_append_of_isValid
    {src : String}
    {p : Nat}
    (hValid : String.Pos.Raw.IsValid src ⟨p⟩) :
    ∃ before after, src.toList = before ++ after ∧
      byteLength before = p := by
  rw [String.Pos.Raw.isValid_iff_exists_append] at hValid
  rcases hValid with ⟨first, second, hSource, hPosition⟩
  refine ⟨first.toList, second.toList, ?_, ?_⟩
  · rw [hSource, String.toList_append]
  · rw [byteLength_toList]
    exact (congrArg String.Pos.Raw.byteIdx hPosition).symm

end Text

end IntDecl

------------------------------------------------------------
-- Slices
------------------------------------------------------------

namespace IntDecl

namespace Span

/-
  The part of a source that a span takes, if the span begins
  and ends between characters of the source.
-/
def slice?
    (s : Span)
    (src : String) :
    Option String :=
  if String.Pos.Raw.IsValid src ⟨s.offset⟩ ∧
      String.Pos.Raw.IsValid src ⟨s.stop⟩ then
    some (String.Pos.Raw.extract src ⟨s.offset⟩ ⟨s.stop⟩)
  else
    none

/- The span of a part of a source has that part as slice. -/
theorem slice?_eq_some
    {s : Span}
    {src : String}
    {before text after : List Char}
    (hSource : src.toList = before ++ (text ++ after))
    (hSpan :
      s = ⟨Text.byteLength before, Text.byteLength text⟩) :
    s.slice? src = some (String.ofList text) := by
  have hParts :
      src = String.ofList (before ++ text ++ after) := by
    rw [List.append_assoc, ← hSource, String.ofList_toList]
  have hOffset := Text.isValid_byteLength hSource
  have hStop :
      String.Pos.Raw.IsValid src
        ⟨Text.byteLength (before ++ text)⟩ := by
    apply Text.isValid_byteLength
    rw [hSource, List.append_assoc]
  rw [Text.byteLength_append] at hStop
  rw [slice?, hSpan, stop, if_pos ⟨hOffset, hStop⟩, hParts,
    Text.byteLength_eq_utf8Len, Text.byteLength_eq_utf8Len,
    String.extract_of_valid]

end Span

end IntDecl

------------------------------------------------------------
-- Covered Positions
------------------------------------------------------------

namespace IntDecl

namespace Token

/- One of the tokens takes the byte at a position. -/
def Cover (tokens : List Token) (i : Nat) : Prop :=
  ∃ token ∈ tokens,
    token.span.offset ≤ i ∧ i < token.span.stop

instance (tokens : List Token) (i : Nat) :
    Decidable (Cover tokens i) := by
  unfold Cover
  infer_instance

/- Positions are covered by the first token or by a later. -/
theorem cover_cons_iff
    (token : Token)
    (tokens : List Token)
    (i : Nat) :
    Cover (token :: tokens) i ↔
      (token.span.offset ≤ i ∧ i < token.span.stop) ∨
        Cover tokens i := by
  simp [Cover]

/- Nothing is covered before the first place. -/
theorem not_cover_place_of_lt
    {i offset : Nat}
    {items : List (List Char × Lexeme)}
    (hBefore : i < offset) :
    ¬ Cover (place offset items) i := by
  intro hCover
  rcases hCover with ⟨token, hMem, hLower, _⟩
  have hPlace := le_offset_of_mem_place hMem
  omega

/-
  In a written form with a gap behind it, the characters that
  the tokens cover are those with which a token can begin.
-/
theorem cover_place_iff
    {items : List (List Char × Lexeme)}
    {gap : List Char}
    (hWritten : Lexeme.Written items)
    (hGap : Lexeme.IsGap gap)
    (offset : Nat) :
    ∀ entry ∈
        Text.indexed offset (Lexeme.write items ++ gap),
      Cover (place offset items) entry.1 ↔
        Lexeme.startsToken entry.2 = true := by
  induction items generalizing offset with
  | nil =>
      intro entry hMem
      have hChar := (Text.bounds_of_mem_indexed hMem).1
      rw [hGap entry.2 hChar]
      simp [Cover, place]
  | cons item items ih =>
      rcases item with ⟨first, l⟩
      rcases hWritten.head with ⟨hFirst, hValid⟩
      intro entry hMem
      rw [Lexeme.write_cons, Text.indexed_append,
        Text.indexed_append, List.mem_append,
        List.mem_append] at hMem
      rw [place, cover_cons_iff]
      rcases hMem with hMem | hMem | hMem
      · rcases Text.bounds_of_mem_indexed hMem with
          ⟨hChar, _, hUpper⟩
        have hLater :
            ¬ Cover
              (place
                (offset + Text.byteLength first + l.size)
                items) entry.1 :=
          not_cover_place_of_lt (by omega)
        rw [hFirst entry.2 hChar]
        simp only [hLater, or_false, Bool.false_eq_true,
          iff_false]
        omega
      · rcases Text.bounds_of_mem_indexed hMem with
          ⟨hChar, hLower, hUpper⟩
        rw [Lexeme.startsToken_of_isValid hValid _ hChar]
        exact iff_of_true (.inl ⟨hLower, hUpper⟩) rfl
      · have hLower := (Text.bounds_of_mem_indexed hMem).2.1
        rw [← ih hWritten.tail _ entry hMem]
        constructor
        · intro hCover
          rcases hCover with hHere | hLater
          · have hUpper : entry.1 < _ := hHere.2
            simp only [Span.stop, Lexeme.size] at hUpper
            omega
          · exact hLater
        · exact Or.inr

end Token

end IntDecl

------------------------------------------------------------
-- Tokens And Gaps Of A Source
------------------------------------------------------------

namespace IntDecl

namespace Lexeme

/- A lexeme takes at least one byte. -/
theorem size_pos_of_isValid
    {l : Lexeme}
    (hValid : l.IsValid) :
    0 < l.size := by
  rcases exists_head_of_isValid hValid with ⟨c, cs, hText, _⟩
  have hPositive := c.utf8Size_pos
  rw [size, hText, Text.byteLength_cons]
  omega

end Lexeme

namespace TokenSequence

/-
  A token of a source stands there: before it and after it
  are other parts of the source.
-/
theorem exists_around_of_mem
    {src : String}
    {token : Token}
    (hMem : token ∈ (ofSource src).body) :
    ∃ before after,
      src.toList =
          before ++ (token.text.toList ++ after) ∧
        token.span =
          ⟨Text.byteLength before, token.size⟩ := by
  rcases exists_ends_of_mem hMem with
    ⟨before, after, hText, hSpan, _⟩
  exact ⟨before, after, hText, hSpan⟩

/-
  The tokens of a source have spans that are not empty, with
  their texts as slices; the spans stand in order and hold
  exactly the characters with which a token can begin; and
  one end mark follows, at the end of the source.
-/
theorem ofSource_tiles
    (src : String) :
    (∀ token ∈ (ofSource src).body,
        0 < token.span.length ∧
          token.span.slice? src = some token.text) ∧
      (ofSource src).body.Pairwise
        (fun t u => t.span.stop ≤ u.span.offset) ∧
      (∀ entry ∈ Text.indexed 0 src.toList,
        Token.Cover (ofSource src).body entry.1 ↔
          Lexeme.startsToken entry.2 = true) ∧
      (ofSource src).tokens =
        (ofSource src).body ++
          [Token.endOfInput ⟨src.utf8ByteSize, 0⟩] ∧
      ∀ token ∈ (ofSource src).body,
        token.kind ≠ .endOfInput := by
  rcases exists_items src with
    ⟨items, gap, hWritten, hGap, hText, hBody⟩
  refine ⟨?_, ordered_ofSource src, ?_, ?_,
    (ofSource src).unmarked⟩
  · intro token hMem
    rcases exists_around_of_mem hMem with
      ⟨before, after, hSource, hSpan⟩
    have hValid : token.toLexeme.IsValid :=
      TokenStream.isValid_of_mem_remaining _ token hMem
    constructor
    · rw [hSpan]
      exact Lexeme.size_pos_of_isValid hValid
    · have hSlice := Span.slice?_eq_some hSource hSpan
      rwa [String.ofList_toList] at hSlice
  · intro entry hMem
    rw [hText] at hMem
    rw [hBody]
    exact Token.cover_place_iff hWritten hGap 0 entry hMem
  · rw [← Text.byteLength_toList]
    rfl

/- A number between characters of two and of four bytes. -/
theorem ofSource_tiles_between_wide :
    let src := "é7🦀"
    let token : Token := ⟨⟨.number, "7"⟩, ⟨2, 1⟩⟩
    token ∈ (ofSource src).body ∧
      (3, '🦀') ∈ Text.indexed 0 src.toList ∧
      token.span.slice? src = some token.text ∧
      ¬ Token.Cover (ofSource src).body 3 := by
  intro src token
  have hMem : token ∈ (ofSource src).body := by
    decide +kernel
  have hEntry :
      (3, '🦀') ∈ Text.indexed 0 src.toList := by
    decide +kernel
  rcases ofSource_tiles src with ⟨hSlices, _, hCover, _⟩
  refine ⟨hMem, hEntry, (hSlices token hMem).2, ?_⟩
  rw [hCover (3, '🦀') hEntry]
  decide

end TokenSequence

end IntDecl
