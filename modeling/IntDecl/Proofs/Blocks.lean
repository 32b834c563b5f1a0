import IntDecl.Proofs.Agreement
import IntDecl.Proofs.Partition
import IntDecl.Proofs.Tiling
import IntDecl.Proofs.Verdict

/-
  This file says where the tokens of a folded source come
  from.

  Folding works on blocks of consecutive tokens: each token
  that it leaves is what it leaves of one block, taken by
  itself. The token stretches from the start of the first
  token of its block to the end of the last, so its span is
  the part of the source in which the block is written, and
  that part, read and folded by itself, gives the same token.

  Key definitions include:
    * `Token.Stretches`

  Key theorems include:
    * `Token.exists_blocks`
    * `Token.exists_block_of_mem`
    * `Token.span_of_contract_place`
    * `TokenSequence.fold_ofSource_located`
-/

------------------------------------------------------------
-- Blocks
------------------------------------------------------------

namespace IntDecl

namespace Token

/-
  Tokens fall into blocks, one for each token that folding
  leaves of them, and folding leaves that token of the block.
-/
theorem exists_blocks
    (tokens : List Token) :
    ∃ blocks : List (List Token),
      blocks.flatten = tokens ∧
        blocks.map contract =
          (contract tokens).map fun token => [token] := by
  rcases exists_partition tokens with
    ⟨blocks, hPartition, hFlat⟩
  refine ⟨blocks, hFlat, ?_⟩
  rw [← hFlat]
  exact hPartition.map_contract

/- A token that folding leaves is left of a block. -/
theorem exists_block_of_mem
    {token : Token}
    {tokens : List Token}
    (hMem : token ∈ contract tokens) :
    ∃ before block after,
      tokens = before ++ (block ++ after) ∧
        contract block = [token] := by
  rcases exists_blocks tokens with ⟨blocks, hFlat, hFolded⟩
  have hLeft : [token] ∈ blocks.map contract := by
    rw [hFolded]
    exact List.mem_map_of_mem hMem
  rcases List.mem_map.mp hLeft with ⟨block, hBlock, hToken⟩
  rcases List.append_of_mem hBlock with
    ⟨front, back, hBlocks⟩
  refine
    ⟨front.flatten, block, back.flatten, ?_, hToken⟩
  rw [← hFlat, hBlocks, List.flatten_append,
    List.flatten_cons]

end Token

end IntDecl

------------------------------------------------------------
-- Stretches
------------------------------------------------------------

namespace IntDecl

namespace Token

/-
  The first of some tokens begins at one position, and the
  last of them stops at another.
-/
def Stretches
    (offset stop : Nat)
    (tokens : List Token) :
    Prop :=
  (∃ first ∈ tokens.head?, first.span.offset = offset) ∧
    ∃ last ∈ tokens.getLast?, last.span.stop = stop

/- A token with given ends has the span between them. -/
theorem Stretches.span_eq
    {offset length : Nat}
    {token : Token}
    (hStretches :
      Stretches offset (offset + length) [token]) :
    token.span = ⟨offset, length⟩ := by
  rcases hStretches with
    ⟨⟨_, hFirst, hOffset⟩, ⟨_, hLast, hStop⟩⟩
  cases hFirst
  rw [List.getLast?_singleton] at hLast
  cases hLast
  rcases token with ⟨l, start, size⟩
  simp only [Span.stop] at hOffset hStop
  simp only [Span.mk.injEq]
  omega

/- A contraction of tokens in order keeps their ends. -/
theorem Contracts.stretches
    {tokens others : List Token}
    {offset stop : Nat}
    (hContracts : Contracts tokens others)
    (hOrdered : Ordered tokens)
    (hStretches : Stretches offset stop tokens) :
    Stretches offset stop others := by
  rcases hContracts with @⟨before, after, lhs, op, rhs, sum,
    hWindow⟩
  rcases hStretches with
    ⟨⟨first, hFirst, hOffset⟩, ⟨last, hLast, hStop⟩⟩
  constructor
  · cases before with
    | nil =>
        cases hFirst
        refine ⟨sum, rfl, ?_⟩
        rw [← hOrdered.offset_of_window? hWindow]
        exact hOffset
    | cons token before =>
        exact ⟨first, hFirst, hOffset⟩
  · cases after with
    | nil =>
        refine ⟨sum, List.getLast?_concat, ?_⟩
        have hRight : rhs = last := by
          simpa using hLast
        rw [hOrdered.stop_of_window? hWindow, hRight]
        exact hStop
    | cons token after =>
        refine ⟨last, ?_, hStop⟩
        simpa using hLast

/- Folding tokens in order keeps the ends of all of them. -/
theorem Ordered.stretches_contract
    {tokens : List Token}
    {offset stop : Nat}
    (hOrdered : Ordered tokens)
    (hStretches : Stretches offset stop tokens) :
    Stretches offset stop (contract tokens) := by
  -- The ends of a sum are known while tokens stand in order.
  have hStep :
      ∀ first second, Contracts first second →
        (Ordered first ∧ Stretches offset stop first) →
          Ordered second ∧ Stretches offset stop second := by
    intro first second hContracts hFirst
    exact
      ⟨hContracts.ordered hFirst.1,
        hContracts.stretches hFirst.1 hFirst.2⟩
  exact
    (contract_induction hStep ⟨hOrdered, hStretches⟩).2

/- The ends of a written form in its place. -/
theorem stretches_place
    (offset : Nat)
    (gap : List Char)
    (l : Lexeme)
    (items : List (List Char × Lexeme)) :
    Stretches (offset + Text.byteLength gap)
      (offset + Text.byteLength gap +
        (l.size + Text.byteLength (Lexeme.write items)))
      (place offset ((gap, l) :: items)) := by
  refine ⟨⟨_, rfl, rfl⟩, ?_⟩
  induction items generalizing offset gap l with
  | nil =>
      exact ⟨_, rfl, rfl⟩
  | cons item items ih =>
      rcases item with ⟨next, m⟩
      rcases ih (offset + Text.byteLength gap + l.size) next m
        with ⟨last, hLast, hStop⟩
      refine ⟨last, ?_, ?_⟩
      · rw [place, List.getLast?_cons,
          Option.mem_def.mp hLast]
        rfl
      · rw [hStop, Lexeme.byteLength_write_cons]
        omega

/-
  If folding leaves one token of a written form, then the
  token stretches over all of it, the gap in front excepted.
-/
theorem span_of_contract_place
    {offset : Nat}
    {gap : List Char}
    {l : Lexeme}
    {items : List (List Char × Lexeme)}
    {token : Token}
    (hFolded :
      contract (place offset ((gap, l) :: items)) =
        [token]) :
    token.span =
      ⟨offset + Text.byteLength gap,
        l.size + Text.byteLength (Lexeme.write items)⟩ := by
  have hOrdered := ordered_place offset ((gap, l) :: items)
  have hAll :=
    hOrdered.stretches_contract
      (stretches_place offset gap l items)
  rw [hFolded] at hAll
  exact hAll.span_eq

end Token

end IntDecl

------------------------------------------------------------
-- Blocks Of A Source
------------------------------------------------------------

namespace IntDecl

namespace Token

/- Parts of placed tokens are parts of the written form. -/
theorem exists_of_place_eq_append
    {offset : Nat}
    {items : List (List Char × Lexeme)}
    {first second : List Token}
    (hPlace : place offset items = first ++ second) :
    ∃ front back, items = front ++ back ∧
      first = place offset front ∧
      second =
        place (offset + Text.byteLength (Lexeme.write front))
          back := by
  induction first generalizing offset items with
  | nil =>
      exact ⟨[], items, rfl, rfl, hPlace.symm⟩
  | cons token first ih =>
      cases items with
      | nil =>
          cases hPlace
      | cons item items =>
          rcases item with ⟨gap, l⟩
          rw [place, List.cons_append, List.cons.injEq]
            at hPlace
          rcases hPlace with ⟨hToken, hLater⟩
          rcases ih hLater with
            ⟨front, back, hItems, hFirst, hSecond⟩
          refine ⟨(gap, l) :: front, back, ?_, ?_, ?_⟩
          · rw [hItems, List.cons_append]
          · rw [place, hToken, hFirst]
          · rw [hSecond, Lexeme.byteLength_write_cons]
            simp only [Nat.add_assoc]

end Token

namespace TokenSequence

/-
  A token of a folded source is left of some lexemes that are
  written one after the other in the source.
-/
theorem exists_items_of_mem_fold
    {src : String}
    {token : Token}
    (hMem : token ∈ (ofSource src).fold.body) :
    ∃ before gap l items after,
      Lexeme.Written ((gap, l) :: items) ∧
        src.toList =
          before ++
            (Lexeme.write ((gap, l) :: items) ++ after) ∧
        Token.contract
          (Token.place (Text.byteLength before)
            ((gap, l) :: items)) = [token] := by
  rcases exists_items src with
    ⟨items, last, hWritten, _, hText, hBody⟩
  rw [body_fold, hBody] at hMem
  rcases Token.exists_block_of_mem hMem with
    ⟨first, block, others, hPlace, hFolded⟩
  rcases Token.exists_of_place_eq_append hPlace with
    ⟨front, _, rfl, _, hLater⟩
  rcases Token.exists_of_place_eq_append hLater.symm with
    ⟨inside, back, rfl, hBlock, _⟩
  cases inside with
  | nil =>
      rw [hBlock, Token.place, Token.contract_nil] at hFolded
      cases hFolded
  | cons item inside =>
      rcases item with ⟨gap, l⟩
      rw [hBlock, Nat.zero_add] at hFolded
      refine
        ⟨Lexeme.write front, gap, l, inside,
          Lexeme.write back ++ last,
          hWritten.of_append_right.of_append_left, ?_,
          hFolded⟩
      rw [hText, Lexeme.write_append, Lexeme.write_append,
        List.append_assoc, List.append_assoc]

/-
  If the written form of a source folds into one lexeme, then
  the source does so too.
-/
theorem fold_ofSource_of_write
    {src : String}
    {token : Token}
    {offset : Nat}
    {gap : List Char}
    {l : Lexeme}
    {items : List (List Char × Lexeme)}
    (hWritten : Lexeme.Written ((gap, l) :: items))
    (hText : src.toList = Lexeme.write (([], l) :: items))
    (hFolded :
      Token.contract
        (Token.place offset ((gap, l) :: items)) =
          [token]) :
    (ofSource src).fold.body =
      [{ token with span := ⟨0, token.span.length⟩ }] := by
  have hAll :
      src.toList = Lexeme.write (([], l) :: items) ++ [] := by
    rw [hText, List.append_nil]
  have hBody :=
    body_ofSource_of_write (hWritten.with_gap (by decide))
      (by decide) hAll
  have hLexemes :
      Token.lexemes [token] =
        Token.lexemes (Token.contract
          (Token.place 0 (([], l) :: items))) := by
    rw [← hFolded]
    apply Token.lexemes_contract
    rw [Token.lexemes_place, Token.lexemes_place]
    rfl
  rcases Token.exists_of_lexemes_cons hLexemes with
    ⟨alone, rest, hAlone, hLexeme, hRest⟩
  have hEmpty : rest = [] :=
    List.map_eq_nil_iff.mp hRest.symm
  rw [hEmpty] at hAlone
  have hSpan := Token.span_of_contract_place hFolded
  have hAloneSpan := Token.span_of_contract_place hAlone
  rw [body_fold, hBody, hAlone, hSpan]
  rcases alone with ⟨_, _⟩
  cases hLexeme
  cases hAloneSpan
  rfl

/-
  The tokens of a folded source stand in order, each of them
  at a part of the source that is not empty; and that part,
  read and folded by itself, gives the same token at its start
  and nothing else.
-/
theorem fold_ofSource_located
    (src : String) :
    (ofSource src).fold.body.Pairwise
        (fun t u => t.span.stop ≤ u.span.offset) ∧
      ∀ token ∈ (ofSource src).fold.body,
        0 < token.span.length ∧
          ∃ part, token.span.slice? src = some part ∧
            (ofSource part).fold.tokens =
              [{ token with
                  span := ⟨0, token.span.length⟩ },
                Token.endOfInput
                  ⟨part.utf8ByteSize, 0⟩] := by
  constructor
  · rw [body_fold]
    apply Token.contract_induction _ (ordered_ofSource src)
    intro tokens others hContracts hOrdered
    exact hContracts.ordered hOrdered
  · intro token hMem
    rcases exists_items_of_mem_fold hMem with
      ⟨before, gap, l, items, after, hWritten, hText,
        hFolded⟩
    have hSpan := Token.span_of_contract_place hFolded
    have hSource :
        src.toList =
          (before ++ gap) ++
            (Lexeme.write (([], l) :: items) ++ after) := by
      rw [hText, Lexeme.write_cons, Lexeme.write_cons,
        List.nil_append, List.append_assoc]
    have hPart :
        token.span =
          ⟨Text.byteLength (before ++ gap),
            Text.byteLength
              (Lexeme.write (([], l) :: items))⟩ := by
      rw [hSpan, Text.byteLength_append,
        Lexeme.byteLength_write_cons, Text.byteLength_nil,
        Nat.zero_add]
    refine
      ⟨?_, _, Span.slice?_eq_some hSource hPart, ?_⟩
    · have hSize :=
        Lexeme.size_pos_of_isValid hWritten.head.2
      rw [hSpan]
      exact Nat.add_pos_left hSize _
    · rw [tokens,
        fold_ofSource_of_write hWritten
          String.toList_ofList hFolded,
        ← Text.byteLength_toList]
      rfl

/- Blanks in a sum, and a sum that is out of bounds. -/
theorem fold_ofSource_located_of_overflow :
    let src := "é 9223372036854775807 +1 + 🦀 02;"
    let token : Token := ⟨⟨.number, "3"⟩, ⟨24, 11⟩⟩
    token ∈ (ofSource src).fold.body ∧
      ∃ part, token.span.slice? src = some part ∧
        (ofSource part).fold.tokens =
          [⟨⟨.number, "3"⟩, ⟨0, 11⟩⟩,
            Token.endOfInput ⟨part.utf8ByteSize, 0⟩] := by
  intro src token
  have hMem : token ∈ (ofSource src).fold.body := by
    decide +kernel
  rcases fold_ofSource_located src with ⟨_, hLocated⟩
  exact ⟨hMem, (hLocated token hMem).2⟩

end TokenSequence

end IntDecl
