import Mathlib.Data.List.Induction
import Mathlib.Order.Bounds.Defs
import IntDecl.Proofs.Concatenation
import IntDecl.Span.Snippet
import IntDecl.Text

/-
  This file shows that lines and columns are coordinates.

  The place of a span gives one position of the source, the
  last one between characters that is not beyond the start of
  the span: all pieces before the line, with their line
  feeds, and then the column within the line. So different
  positions have different places, and later positions have
  later places. A place can also be told by counting the line
  feeds before it and searching back for the last of them.

  Key definitions include:
    * `Location.NoLater`
    * `Text.lastLineFeed?`
    * `Text.floorBoundary`
    * `Location.counted`

  Key theorems include:
    * `Text.exists_pieces_append`
    * `Text.isPrefix_takeBytes`
    * `Location.after_eq`
    * `Location.noLater_after_append`
    * `Location.after_eq_counted`
    * `Text.isGreatest_floorBoundary`
    * `Span.isGreatest_takeBytes`
    * `Span.location_eq_counted`
    * `Span.location_coordinates`
-/

------------------------------------------------------------
-- Pieces Of A Text
------------------------------------------------------------

namespace IntDecl

namespace Text

/- Every text has a first piece. -/
theorem exists_pieces_eq_cons
    (cs : List Char) :
    ∃ piece others, pieces cs = piece :: others :=
  List.exists_cons_of_ne_nil (List.splitOn_ne_nil '\n' cs)

/- A line feed begins a piece. -/
theorem pieces_lineFeed
    (cs : List Char) :
    pieces ('\n' :: cs) = [] :: pieces cs := by
  rw [pieces, List.splitOn_cons_eq_if_modifyHead]
  rfl

/- Any other character goes on with a piece. -/
theorem pieces_cons
    {c : Char}
    {cs piece : List Char}
    {others : List (List Char)}
    (hChar : c ≠ '\n')
    (hPieces : pieces cs = piece :: others) :
    pieces (c :: cs) = (c :: piece) :: others := by
  rw [pieces] at hPieces
  rw [pieces, List.splitOn_cons_eq_if_modifyHead, hPieces,
    if_neg (by simpa using hChar)]
  rfl

/-
  Where two texts meet, the last piece of the first and the
  first piece of the second become one.
-/
theorem exists_pieces_append
    (first second : List Char) :
    ∃ earlier front back later,
      pieces first = earlier ++ [front] ∧
        pieces second = back :: later ∧
        pieces (first ++ second) =
          earlier ++ (front ++ back) :: later := by
  induction first with
  | nil =>
      rcases exists_pieces_eq_cons second with
        ⟨back, later, hSecond⟩
      exact ⟨[], [], back, later, rfl, hSecond, hSecond⟩
  | cons c first ih =>
      rcases ih with
        ⟨earlier, front, back, later, hFirst, hSecond, hBoth⟩
      by_cases hFeed : c = '\n'
      · subst hFeed
        refine
          ⟨[] :: earlier, front, back, later, ?_, hSecond, ?_⟩
        · rw [pieces_lineFeed, hFirst, List.cons_append]
        · rw [List.cons_append, pieces_lineFeed, hBoth,
            List.cons_append]
      · cases earlier with
        | nil =>
            refine
              ⟨[], c :: front, back, later, ?_, hSecond, ?_⟩
            · exact pieces_cons hFeed hFirst
            · exact pieces_cons hFeed hBoth
        | cons piece earlier =>
            refine
              ⟨(c :: piece) :: earlier, front, back, later,
                ?_, hSecond, ?_⟩
            · exact pieces_cons hFeed hFirst
            · exact pieces_cons hFeed hBoth

/- A line feed at the end of a text leaves an empty piece. -/
theorem pieces_concat_lineFeed
    (cs : List Char) :
    pieces (cs ++ ['\n']) = pieces cs ++ [[]] :=
  List.splitOn_append_cons_self cs []

/- Any other character at the end belongs to the last piece. -/
theorem pieces_concat
    {c : Char}
    {cs piece : List Char}
    {others : List (List Char)}
    (hChar : c ≠ '\n')
    (hPieces : pieces cs = others ++ [piece]) :
    pieces (cs ++ [c]) = others ++ [piece ++ [c]] := by
  have hLast : pieces [c] = [[c]] :=
    pieces_cons hChar rfl
  rcases exists_pieces_append cs [c] with
    ⟨earlier, front, back, later, hFront, hBack, hBoth⟩
  rw [hPieces] at hFront
  rw [hLast] at hBack
  rcases List.append_inj' hFront rfl with ⟨hEarlier, hEnd⟩
  cases hEnd
  cases hBack
  rw [hBoth, hEarlier]

/- No piece holds a line feed. -/
theorem lineFeed_not_mem_of_mem_pieces
    {cs piece : List Char}
    (hMem : piece ∈ pieces cs) :
    '\n' ∉ piece := by
  induction cs generalizing piece with
  | nil =>
      rw [List.mem_singleton.mp hMem]
      exact List.not_mem_nil
  | cons c cs ih =>
      by_cases hFeed : c = '\n'
      · rw [hFeed, pieces_lineFeed, List.mem_cons] at hMem
        rcases hMem with hFirst | hLater
        · rw [hFirst]
          exact List.not_mem_nil
        · exact ih hLater
      · rcases exists_pieces_eq_cons cs with
          ⟨first, others, hPieces⟩
        rw [pieces_cons hFeed hPieces, List.mem_cons] at hMem
        rw [hPieces, List.forall_mem_cons] at ih
        rcases hMem with hFirst | hLater
        · rw [hFirst, List.mem_cons]
          exact not_or.mpr ⟨Ne.symm hFeed, ih.1⟩
        · exact ih.2 _ hLater

/- A text is its pieces and one line feed less than those. -/
theorem byteLength_flatten_pieces
    (cs : List Char) :
    byteLength (pieces cs).flatten + (pieces cs).length =
      byteLength cs + 1 := by
  induction cs with
  | nil =>
      rfl
  | cons c cs ih =>
      by_cases hFeed : c = '\n'
      · have hOne : '\n'.utf8Size = 1 := by decide
        rw [hFeed, pieces_lineFeed, List.flatten_cons,
          List.nil_append, List.length_cons, byteLength_cons]
        omega
      · rcases exists_pieces_eq_cons cs with
          ⟨piece, others, hPieces⟩
        rw [hPieces] at ih
        rw [pieces_cons hFeed hPieces, List.flatten_cons,
          List.cons_append, ← List.flatten_cons,
          byteLength_cons, byteLength_cons, List.length_cons]
        rw [List.length_cons] at ih
        omega

end Text

end IntDecl

------------------------------------------------------------
-- The Longest Part Within A Budget
------------------------------------------------------------

namespace IntDecl

namespace Text

/- Every initial part within the budget is cut off or less. -/
theorem isPrefix_takeBytes
    {first cs : List Char}
    {budget : Nat}
    (hPrefix : first <+: cs)
    (hFits : byteLength first ≤ budget) :
    first <+: takeBytes budget cs := by
  induction first generalizing cs budget with
  | nil =>
      exact List.nil_prefix
  | cons c first ih =>
      rcases hPrefix with ⟨rest, hRest⟩
      subst hRest
      rw [byteLength_cons] at hFits
      rw [List.cons_append, takeBytes, if_pos (by omega),
        List.cons_prefix_cons]
      exact ⟨rfl, ih (List.prefix_append _ _) (by omega)⟩

/- The bytes of an initial part cut off that part. -/
theorem takeBytes_byteLength
    (first second : List Char) :
    takeBytes (byteLength first) (first ++ second) =
      first := by
  induction first with
  | nil =>
      cases second with
      | nil =>
          rfl
      | cons c second =>
          have hPositive := c.utf8Size_pos
          rw [byteLength_nil, List.nil_append, takeBytes,
            if_neg (by omega)]
  | cons c first ih =>
      rw [byteLength_cons, List.cons_append, takeBytes,
        if_pos (Nat.le_add_right _ _),
        Nat.add_sub_cancel_left, ih]

/- A larger budget cuts off no less. -/
theorem takeBytes_prefix_of_le
    {first second : Nat}
    (hLe : first ≤ second)
    (cs : List Char) :
    takeBytes first cs <+: takeBytes second cs := by
  apply isPrefix_takeBytes (takeBytes_isPrefix first cs)
  exact (byteLength_takeBytes_le first cs).trans hLe

end Text

end IntDecl

------------------------------------------------------------
-- Places Behind A Text
------------------------------------------------------------

namespace IntDecl

namespace Location

/- A place that another one does not come before. -/
def NoLater (l m : Location) : Prop :=
  l.line < m.line ∨
    (l.line = m.line ∧ l.column ≤ m.column)

instance (l m : Location) : Decidable (l.NoLater m) := by
  unfold NoLater
  infer_instance

/- No place comes before itself. -/
theorem noLater_refl
    (l : Location) :
    l.NoLater l :=
  .inr ⟨rfl, Nat.le_refl _⟩

/- Places are ordered. -/
theorem NoLater.trans
    {l m n : Location}
    (hFirst : l.NoLater m)
    (hSecond : m.NoLater n) :
    l.NoLater n := by
  unfold NoLater at hFirst hSecond ⊢
  omega

/- A character leads to no earlier place. -/
theorem noLater_advance
    (l : Location)
    (c : Char) :
    l.NoLater (l.advance c) := by
  unfold advance
  split
  · exact .inl (Nat.lt_succ_self _)
  · exact .inr ⟨rfl, Nat.le_add_right _ _⟩

/- The last character leads on from what is before it. -/
theorem after_concat
    (cs : List Char)
    (c : Char) :
    after (cs ++ [c]) = (after cs).advance c :=
  List.foldl_concat advance start c cs

/- A longer text leads to no earlier place. -/
theorem noLater_after_append
    (first second : List Char) :
    (after first).NoLater (after (first ++ second)) := by
  induction second using List.reverseRecOn with
  | nil =>
      rw [List.append_nil]
      exact noLater_refl _
  | append_singleton second c ih =>
      rw [← List.append_assoc, after_concat]
      exact ih.trans (noLater_advance _ c)

/-
  Behind a text stands the last of its pieces, with as many
  lines before it as there are other pieces.
-/
theorem exists_pieces_after
    (cs : List Char) :
    ∃ others piece, Text.pieces cs = others ++ [piece] ∧
      after cs =
        ⟨others.length + 1, Text.byteLength piece⟩ := by
  induction cs using List.reverseRecOn with
  | nil =>
      exact ⟨[], [], rfl, rfl⟩
  | append_singleton cs c ih =>
      rcases ih with ⟨others, piece, hPieces, hAfter⟩
      by_cases hFeed : c = '\n'
      · refine ⟨others ++ [piece], [], ?_, ?_⟩
        · rw [hFeed, Text.pieces_concat_lineFeed, hPieces]
        · rw [after_concat, hAfter, advance, if_pos hFeed,
            List.length_append]
          rfl
      · refine ⟨others, piece ++ [c], ?_, ?_⟩
        · exact Text.pieces_concat hFeed hPieces
        · rw [after_concat, hAfter, advance, if_neg hFeed,
            Text.byteLength_append]
          rfl

/- The place behind a text, told from its pieces. -/
theorem after_eq
    {cs piece : List Char}
    {others : List (List Char)}
    (hPieces : Text.pieces cs = others ++ [piece]) :
    after cs =
      ⟨others.length + 1, Text.byteLength piece⟩ := by
  rcases exists_pieces_after cs with
    ⟨earlier, last, hOther, hAfter⟩
  rw [hPieces] at hOther
  rcases List.append_inj' hOther rfl with ⟨hEarlier, hLast⟩
  cases hLast
  rw [hAfter, hEarlier]

end Location

end IntDecl

------------------------------------------------------------
-- Places By Searching Back
------------------------------------------------------------

namespace IntDecl

namespace Text

/- The byte position of the last line feed, if there is one. -/
def lastLineFeed? (cs : List Char) : Option Nat :=
  ((indexed 0 cs).reverse.find? fun entry =>
    entry.2 = '\n').map Prod.fst

/- A character at the end is examined first. -/
theorem lastLineFeed?_concat
    (cs : List Char)
    (c : Char) :
    lastLineFeed? (cs ++ [c]) =
      if c = '\n' then some (byteLength cs)
      else lastLineFeed? cs := by
  rw [lastLineFeed?, indexed_append, Nat.zero_add, indexed,
    indexed, List.reverse_concat, List.find?_cons]
  by_cases hFeed : c = '\n'
  · simp [hFeed]
  · simp [hFeed, lastLineFeed?]

/- The last line feed stands within the text. -/
theorem lt_byteLength_of_lastLineFeed?
    {cs : List Char}
    {i : Nat}
    (hLast : lastLineFeed? cs = some i) :
    i < byteLength cs := by
  rw [lastLineFeed?, Option.map_eq_some_iff] at hLast
  rcases hLast with ⟨entry, hFind, rfl⟩
  have hMem :=
    List.mem_reverse.mp (List.mem_of_find?_eq_some hFind)
  have hBounds := bounds_of_mem_indexed hMem
  omega

/-
  The last position between characters that is not beyond an
  offset, searched for byte by byte from the offset back.
-/
def floorBoundary (src : String) : Nat → Nat
| 0 => 0
| offset + 1 =>
    if String.Pos.Raw.IsValid src ⟨offset + 1⟩ then
      offset + 1
    else
      floorBoundary src offset

/- The search ends at the last such position. -/
theorem isGreatest_floorBoundary
    (src : String)
    (offset : Nat) :
    IsGreatest
      {p | String.Pos.Raw.IsValid src ⟨p⟩ ∧ p ≤ offset}
      (floorBoundary src offset) := by
  induction offset with
  | zero =>
      have hStart : src.toList = [] ++ src.toList := rfl
      exact
        ⟨⟨isValid_byteLength hStart, Nat.le_refl _⟩,
          fun p hPosition => hPosition.2⟩
  | succ offset ih =>
      rw [floorBoundary]
      split
      case isTrue hValid =>
        exact
          ⟨⟨hValid, Nat.le_refl _⟩,
            fun p hPosition => hPosition.2⟩
      case isFalse hInside =>
        refine ⟨⟨ih.1.1, Nat.le_succ_of_le ih.1.2⟩, ?_⟩
        intro p hPosition
        rcases hPosition with ⟨hValid, hLe⟩
        rcases Nat.le_succ_iff.mp hLe with hBefore | hEq
        · exact ih.2 ⟨hValid, hBefore⟩
        · subst hEq
          exact absurd hValid hInside

end Text

namespace Location

/-
  The place behind a text by counting: its line feeds give the
  line, the bytes behind the last one the column.
-/
def counted (cs : List Char) : Location where
  line := cs.count '\n' + 1
  column :=
    match Text.lastLineFeed? cs with
    | some i => Text.byteLength cs - i - 1
    | none => Text.byteLength cs

/- Counting gives the place that the characters lead to. -/
theorem after_eq_counted
    (cs : List Char) :
    after cs = counted cs := by
  induction cs using List.reverseRecOn with
  | nil =>
      rfl
  | append_singleton cs c ih =>
      rw [after_concat, ih, counted, counted,
        Text.lastLineFeed?_concat, Text.byteLength_append,
        List.count_append]
      by_cases hFeed : c = '\n'
      · subst hFeed
        have hOne : Text.byteLength ['\n'] = 1 := by
          decide
        rw [advance, if_pos rfl, if_pos rfl, hOne,
          List.count_singleton_self]
        simp
      · have hNone : [c].count '\n' = 0 := by
          simp [hFeed]
        rw [advance, if_neg hFeed, if_neg hFeed, hNone,
          Text.byteLength_cons, Text.byteLength_nil]
        cases hLast : Text.lastLineFeed? cs with
        | none =>
            rfl
        | some i =>
            have hInside :=
              Text.lt_byteLength_of_lastLineFeed? hLast
            simp only [Nat.add_zero, mk.injEq, true_and]
            omega

end Location

end IntDecl

------------------------------------------------------------
-- Coordinates
------------------------------------------------------------

namespace IntDecl

namespace Span

variable {src : String}

/-
  The part of a source in front of a span ends at the last
  position between characters that is not beyond the start of
  the span or the end of the source.
-/
theorem isGreatest_takeBytes
    (s : Span)
    (src : String) :
    IsGreatest
      {p | String.Pos.Raw.IsValid src ⟨p⟩ ∧
        p ≤ min s.offset src.utf8ByteSize}
      (Text.byteLength
        (Text.takeBytes s.offset src.toList)) := by
  constructor
  · rcases Text.takeBytes_isPrefix s.offset src.toList with
      ⟨rest, hRest⟩
    have hSize := congrArg Text.byteLength hRest
    rw [Text.byteLength_append, Text.byteLength_toList]
      at hSize
    have hBudget :=
      Text.byteLength_takeBytes_le s.offset src.toList
    exact
      ⟨Text.isValid_byteLength hRest.symm,
        Nat.le_min.mpr ⟨hBudget, by omega⟩⟩
  · intro p hPosition
    rcases hPosition with ⟨hValid, hLe⟩
    rcases Text.exists_append_of_isValid hValid with
      ⟨first, second, hSource, hBytes⟩
    have hPrefix :
        first <+: Text.takeBytes s.offset src.toList := by
      apply Text.isPrefix_takeBytes
      · rw [hSource]
        exact List.prefix_append _ _
      · omega
    rcases hPrefix with ⟨rest, hRest⟩
    rw [← hBytes, ← hRest, Text.byteLength_append]
    exact Nat.le_add_right _ _

/-
  The place of a span by counting and searching back: the
  start of the span, or the end of the source if that comes
  first, is moved back to a position between characters, and
  what is counted is the slice of the source before it.
-/
theorem location_eq_counted
    (s : Span)
    (src : String) :
    ∃ before,
      (Span.mk 0 (Text.floorBoundary src
        (min s.offset src.utf8ByteSize))).slice? src =
          some before ∧
        s.location src = Location.counted before.toList := by
  have hFloor :=
    Text.isGreatest_floorBoundary src
      (min s.offset src.utf8ByteSize)
  have hTake := s.isGreatest_takeBytes src
  have hSame := le_antisymm (hTake.2 hFloor.1)
    (hFloor.2 hTake.1)
  rcases Text.takeBytes_isPrefix s.offset src.toList with
    ⟨rest, hRest⟩
  have hSource : src.toList =
      [] ++ (Text.takeBytes s.offset src.toList ++ rest) :=
    hRest.symm
  refine
    ⟨String.ofList (Text.takeBytes s.offset src.toList),
      ?_, ?_⟩
  · rw [hSame]
    exact slice?_eq_some hSource rfl
  · rw [String.toList_ofList]
    exact Location.after_eq_counted _

/-
  The place of a span gives the position where the part of
  the source in front of the span ends.
-/
theorem exists_piece_of_location
    (s : Span)
    (src : String) :
    ∃ piece,
      let place := s.location src
      let pieces := Text.pieces src.toList
      1 ≤ place.line ∧
        pieces[place.line - 1]? = some piece ∧
        place.column ≤ Text.byteLength piece ∧
        Text.byteLength
            (pieces.take (place.line - 1)).flatten +
              (place.line - 1) + place.column =
          Text.byteLength
            (Text.takeBytes s.offset src.toList) := by
  rcases Text.takeBytes_isPrefix s.offset src.toList with
    ⟨rest, hRest⟩
  rcases Text.exists_pieces_append
      (Text.takeBytes s.offset src.toList) rest with
    ⟨earlier, front, back, later, hFront, _, hBoth⟩
  rw [hRest] at hBoth
  have hPlace : s.location src = _ := Location.after_eq hFront
  have hBytes :=
    Text.byteLength_flatten_pieces
      (Text.takeBytes s.offset src.toList)
  rw [hFront, List.flatten_append, List.flatten_singleton,
    Text.byteLength_append, List.length_append,
    List.length_singleton] at hBytes
  refine ⟨front ++ back, ?_⟩
  simp only [hPlace, hBoth, Nat.add_sub_cancel]
  refine ⟨Nat.le_add_left _ _, ?_, ?_, ?_⟩
  · rw [List.getElem?_append_right (Nat.le_refl _),
      Nat.sub_self]
    rfl
  · rw [Text.byteLength_append]
    exact Nat.le_add_right _ _
  · rw [List.take_left]
    omega

/- A span that starts at a position is behind all before it. -/
theorem byteLength_takeBytes_of_isValid
    {s : Span}
    (hValid : String.Pos.Raw.IsValid src ⟨s.offset⟩) :
    Text.byteLength (Text.takeBytes s.offset src.toList) =
      s.offset := by
  rcases Text.exists_append_of_isValid hValid with
    ⟨first, second, hSource, hBytes⟩
  rw [hSource, ← hBytes, Text.takeBytes_byteLength]

/- Spans that start at two positions have two places. -/
theorem location_ne_of_isValid
    {s t : Span}
    (hFirst : String.Pos.Raw.IsValid src ⟨s.offset⟩)
    (hSecond : String.Pos.Raw.IsValid src ⟨t.offset⟩)
    (hOffsets : s.offset ≠ t.offset) :
    s.location src ≠ t.location src := by
  intro hPlaces
  rcases s.exists_piece_of_location src with
    ⟨_, _, _, _, hStart⟩
  rcases t.exists_piece_of_location src with
    ⟨_, _, _, _, hOther⟩
  rw [byteLength_takeBytes_of_isValid hFirst] at hStart
  rw [byteLength_takeBytes_of_isValid hSecond, ← hPlaces,
    hStart] at hOther
  exact hOffsets hOther

/- A span that starts further on has no earlier place. -/
theorem noLater_location_of_le
    {s t : Span}
    (hOffsets : s.offset ≤ t.offset)
    (src : String) :
    (s.location src).NoLater (t.location src) := by
  rcases Text.takeBytes_prefix_of_le hOffsets src.toList with
    ⟨rest, hRest⟩
  have hLater :=
    Location.noLater_after_append
      (Text.takeBytes s.offset src.toList) rest
  rw [hRest] at hLater
  exact hLater

/-
  Lines and columns are coordinates of a source. The place of
  a span lies in a piece of the source between line feeds,
  and the pieces before it, their line feeds and the column
  add up to the last position between characters that is not
  beyond the start of the span. So spans that start at two
  such positions have two places, and a span that starts
  further on has no earlier place.
-/
theorem location_coordinates
    (src : String) :
    (∀ s : Span, ∃ p piece,
        let place := s.location src
        let pieces := Text.pieces src.toList
        IsGreatest
            {q | String.Pos.Raw.IsValid src ⟨q⟩ ∧
              q ≤ min s.offset src.utf8ByteSize} p ∧
          1 ≤ place.line ∧ place.line ≤ pieces.length ∧
          pieces[place.line - 1]? = some piece ∧
          place.column ≤ Text.byteLength piece ∧
          Text.byteLength
              (pieces.take (place.line - 1)).flatten +
                (place.line - 1) + place.column = p) ∧
      (∀ s t : Span,
        String.Pos.Raw.IsValid src ⟨s.offset⟩ →
          String.Pos.Raw.IsValid src ⟨t.offset⟩ →
            s.offset ≠ t.offset →
              s.location src ≠ t.location src) ∧
      ∀ s t : Span, s.offset ≤ t.offset →
        (s.location src).NoLater (t.location src) := by
  refine ⟨?_, ?_, ?_⟩
  · intro s
    rcases s.exists_piece_of_location src with
      ⟨piece, hLine, hPiece, hColumn, hBytes⟩
    rcases List.getElem?_eq_some_iff.mp hPiece with ⟨hLt, _⟩
    exact
      ⟨_, piece, s.isGreatest_takeBytes src, hLine,
        by omega, hPiece, hColumn, hBytes⟩
  · intro s t hFirst hSecond hOffsets
    exact location_ne_of_isValid hFirst hSecond hOffsets
  · intro s t hOffsets
    exact noLater_location_of_le hOffsets src

/-
  Positions on both sides of a line feed that follows a
  character of two bytes, and a span that starts inside of
  that character.
-/
theorem location_coordinates_around_lineFeed :
    let src := "aé\nb"
    String.Pos.Raw.IsValid src ⟨3⟩ ∧
      String.Pos.Raw.IsValid src ⟨4⟩ ∧
      (Span.mk 3 1).location src = ⟨1, 3⟩ ∧
      (Span.mk 4 1).location src = ⟨2, 0⟩ ∧
      (Span.mk 3 1).location src ≠
        (Span.mk 4 1).location src ∧
      ((Span.mk 2 1).location src).NoLater
        ((Span.mk 3 1).location src) := by
  intro src
  have hBefore : src.toList = ['a', 'é'] ++ ['\n', 'b'] := by
    decide +kernel
  have hBehind : src.toList = ['a', 'é', '\n'] ++ ['b'] := by
    decide +kernel
  have hFirst : String.Pos.Raw.IsValid src ⟨3⟩ :=
    Text.isValid_byteLength hBefore
  have hSecond : String.Pos.Raw.IsValid src ⟨4⟩ :=
    Text.isValid_byteLength hBehind
  rcases location_coordinates src with
    ⟨_, hDistinct, hOrdered⟩
  exact
    ⟨hFirst, hSecond, by decide +kernel, by decide +kernel,
      hDistinct _ _ hFirst hSecond (by decide),
      hOrdered _ _ (by decide)⟩

end Span

end IntDecl
