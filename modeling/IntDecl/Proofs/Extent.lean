import IntDecl.Proofs.Recognition
import IntDecl.Proofs.Session

/-
  This file says where the recognition of a phrase ends.

  Sums and products go on as long as there is a sign for
  them, so a phrase is recognized only up to a token that
  does not continue it. A sign that could continue a phrase
  always does in some text, and there recognition has to go
  on; as it never looks beyond the next token, it goes on
  everywhere.

  Key definitions include:
    * `TokenSequence.HoldsPhrase`

  Key theorems include:
    * `Derives.continued`
    * `Parser.not_mem_extensions_of_recognize`
    * `TokenSequence.recognize_before_iff`
    * `TokenSequence.recognize_afterAll_iff`
-/

------------------------------------------------------------
-- Phrases That Go On
------------------------------------------------------------

namespace IntDecl

namespace Derives

/- No phrase is empty. -/
theorem ne_nil
    {n : NonTerminal}
    {kinds : List TokenKind}
    (hDerives : Derives n kinds) :
    kinds ≠ [] := by
  induction hDerives with
  | number =>
      simp
  | group _ _ =>
      simp
  | term _ _ ihFirst _ =>
      exact List.append_ne_nil_of_left_ne_nil ihFirst _
  | expression _ _ ihFirst _ =>
      exact List.append_ne_nil_of_left_ne_nil ihFirst _
  | program _ _ =>
      simp

/- A term goes on behind a multiplication sign. -/
theorem term_multiply
    {kinds : List TokenKind}
    (hTerm : Derives .term kinds) :
    Derives .term (kinds ++ [.multiply, .number]) := by
  rcases hTerm with _ | _ | @⟨first, others, hFirst, hOthers⟩
  have hAll :
      ∀ other ∈ others ++ [[.number]],
        Derives .factor other := by
    rw [List.forall_mem_append, List.forall_mem_singleton]
    exact ⟨hOthers, .number⟩
  have hLonger := Derives.term hFirst hAll
  rw [List.flatMap_append, ← List.append_assoc] at hLonger
  exact hLonger

/- An expression goes on behind a plus sign. -/
theorem expression_plus
    {kinds : List TokenKind}
    (hExpression : Derives .expression kinds) :
    Derives .expression (kinds ++ [.plus, .number]) := by
  rcases hExpression with
    _ | _ | _ | @⟨first, others, hFirst, hOthers⟩
  have hAll :
      ∀ other ∈ others ++ [[.number]],
        Derives .term other := by
    rw [List.forall_mem_append, List.forall_mem_singleton]
    exact ⟨hOthers, .term_of_factor .number⟩
  have hLonger := Derives.expression hFirst hAll
  rw [List.flatMap_append, ← List.append_assoc] at hLonger
  exact hLonger

/-
  An expression goes on behind a multiplication sign, which
  makes its last term longer.
-/
theorem expression_multiply
    {kinds : List TokenKind}
    (hExpression : Derives .expression kinds) :
    Derives .expression (kinds ++ [.multiply, .number]) := by
  rcases hExpression with
    _ | _ | _ | @⟨first, others, hFirst, hOthers⟩
  rcases List.eq_nil_or_concat others with
    hNone | ⟨front, last, hLast⟩
  · rw [hNone, List.flatMap_nil, List.append_nil]
    exact .expression_of_term hFirst.term_multiply
  · rw [List.concat_eq_append] at hLast
    rw [hLast, List.forall_mem_append,
      List.forall_mem_singleton] at hOthers
    have hAll :
        ∀ other ∈ front ++ [last ++ [.multiply, .number]],
          Derives .term other := by
      rw [List.forall_mem_append, List.forall_mem_singleton]
      exact ⟨hOthers.1, hOthers.2.term_multiply⟩
    have hLonger := Derives.expression hFirst hAll
    simpa [hLast, List.append_assoc] using hLonger

/- The kinds that continue a phrase can stand behind it. -/
theorem continued
    {n : NonTerminal}
    {kinds : List TokenKind}
    {next : TokenKind}
    (hDerives : Derives n kinds)
    (hNext : next ∈ n.extensions) :
    Derives n (kinds ++ [next, .number]) := by
  cases n with
  | program =>
      cases hNext
  | expression =>
      rw [NonTerminal.extensions, List.mem_cons,
        List.mem_singleton] at hNext
      rcases hNext with rfl | rfl
      · exact hDerives.expression_plus
      · exact hDerives.expression_multiply
  | term =>
      rw [NonTerminal.extensions, List.mem_singleton] at hNext
      subst hNext
      exact hDerives.term_multiply
  | factor =>
      cases hNext

end Derives

namespace Parser

/-
  No token that continues a phrase stands where recognition
  of the phrase has ended. It would end there in a text that
  goes on with a longer phrase, too, but it recognizes longer
  phrases.
-/
theorem not_mem_extensions_of_recognize
    {n : NonTerminal}
    {p : Parser}
    (hOk : (p.recognize n).error? = none) :
    (p.recognize n).parser.peek.kind ∉ n.extensions := by
  intro hNext
  rcases exists_leads_of_error?_eq_none hOk with
    ⟨used, hLeads⟩
  have hLonger := hLeads.derives.continued hNext
  let next := (p.recognize n).parser.peek.kind
  let r := ofKinds (used ++ [next, .number])
  have hKinds : r.kinds = used ++ [next, .number] :=
    kinds_ofKinds _
  have hBehind : (r.skip used.length).kinds =
      [next, .number] := by
    rw [kinds_skip, hKinds, List.drop_left]
  have hEnd :
      (r.skip (used ++ [next, .number]).length).kinds =
        [] := by
    rw [kinds_skip, hKinds, List.drop_length]
  -- The shorter phrase ends where it ended before.
  have hShort :
      (r.recognize n).parser = r.skip used.length := by
    have hThere := hLeads.transfer (r := r)
      ⟨_, hKinds.symm⟩
      (.inl (by rw [kind_peek, hBehind]; rfl))
    exact hThere.run_of_nil.2
  -- The longer phrase ends at the end of the text.
  have hLong :
      (r.recognize n).parser =
        r.skip (used ++ [next, .number]).length := by
    apply (recognize_of_derives hLonger _ _).2
    · exact hKinds ▸ List.prefix_rfl
    · rw [kind_peek, hEnd]
      cases n <;> decide
  rw [← hShort, hLong, hEnd] at hBehind
  cases hBehind

end Parser

end IntDecl

------------------------------------------------------------
-- Phrases Within A Sequence
------------------------------------------------------------

namespace IntDecl

namespace TokenSequence

/- The kind at a position is the one that is seen there. -/
theorem getElem?_kinds_cursor
    {ts : TokenSequence}
    {cursor : Nat}
    (hCursor : cursor ≤ ts.body.length) :
    ts.kinds[cursor]? =
      some (Parser.before ts cursor).peek.kind := by
  have hSize : cursor < ts.size := by
    rw [size_eq]
    omega
  rw [kinds, Token.kinds, List.getElem?_map,
    Parser.getElem?_tokens_cursor hSize]
  rfl

/- Kinds before the end mark are kinds of the body. -/
theorem extract_kinds
    {ts : TokenSequence}
    {first last : Nat}
    (hFirst : first ≤ last)
    (hLast : last ≤ ts.body.length) :
    ts.kinds.extract first last =
      ((Token.kinds ts.body).drop first).take
        (last - first) := by
  have hLength :
      (Token.kinds ts.body).length = ts.body.length :=
    List.length_map _
  rw [kinds_eq, List.extract_eq_take_drop,
    List.drop_append_of_le_length (by omega),
    List.take_append_of_le_length]
  rw [List.length_drop]
  omega

/-
  The kinds from one position up to but without another derive
  a phrase, and the token at the second one does not continue
  it.
-/
def HoldsPhrase
    (ts : TokenSequence)
    (n : NonTerminal)
    (first last : Nat) :
    Prop :=
  Derives n (ts.kinds.extract first last) ∧
    ∃ next ∈ ts.kinds[last]?, next ∉ n.extensions

/-
  A phrase is recognized from a position up to another one
  exactly if it is held between them.
-/
theorem recognize_before_iff
    {ts : TokenSequence}
    {first : Nat}
    (hFirst : first ≤ ts.body.length)
    (n : NonTerminal)
    (last : Nat) :
    ((Parser.before ts first).recognize n).error? = none ∧
        ((Parser.before ts first).recognize n).parser =
          Parser.before ts last ↔
      ts.HoldsPhrase n first last := by
  constructor
  · intro hRecognized
    rcases hRecognized with ⟨hOk, hEnd⟩
    have hNext := Parser.not_mem_extensions_of_recognize hOk
    rcases Parser.exists_derives_of_recognize hOk with
      ⟨kinds, hDerives, hPrefix, hSkip⟩
    rw [Parser.kinds_before] at hPrefix
    have hLength : first + kinds.length ≤ ts.body.length := by
      have hLe := hPrefix.length_le
      rw [List.length_drop, Token.kinds, List.length_map]
        at hLe
      omega
    rw [Parser.skip_before hLength, hEnd] at hSkip
    have hLast : last = first + kinds.length :=
      congrArg Parser.cursor hSkip
    have hKinds : ts.kinds.extract first last = kinds := by
      rw [extract_kinds (by omega) (by omega), hLast,
        Nat.add_sub_cancel_left]
      exact (List.prefix_iff_eq_take.mp hPrefix).symm
    rw [hEnd] at hNext
    refine ⟨?_, _, getElem?_kinds_cursor (by omega), hNext⟩
    rw [hKinds]
    exact hDerives
  · intro hHolds
    rcases hHolds with ⟨hDerives, next, hSeen, hNext⟩
    have hLast : last ≤ ts.body.length := by
      have hLess := (List.getElem?_eq_some_iff.mp hSeen).1
      rw [kinds_eq, List.length_append, Token.kinds,
        List.length_map, List.length_singleton] at hLess
      omega
    have hOrder : first ≤ last := by
      apply Nat.le_of_not_lt
      intro hLess
      apply hDerives.ne_nil
      rw [List.extract_eq_take_drop,
        Nat.sub_eq_zero_of_le (Nat.le_of_lt hLess),
        List.take_zero]
    rw [extract_kinds hOrder hLast] at hDerives
    have hLength :
        (((Token.kinds ts.body).drop first).take
          (last - first)).length = last - first := by
      rw [List.length_take, List.length_drop, Token.kinds,
        List.length_map]
      omega
    have hSkip :
        (Parser.before ts first).skip (last - first) =
          Parser.before ts last := by
      rw [Parser.skip_before (by omega),
        Nat.add_sub_cancel' hOrder]
    have hRecognized := Parser.recognize_of_derives hDerives
      (p := Parser.before ts first)
      (by rw [Parser.kinds_before]; exact List.take_prefix _ _)
    rw [hLength, hSkip] at hRecognized
    apply hRecognized
    rw [getElem?_kinds_cursor hLast] at hSeen
    cases hSeen
    exact hNext

/-
  After any session on a sequence, a phrase is recognized up
  to a position exactly if it is held between the position of
  the session and that one. There is at most one such
  position, and if there is none, recognition fails.
-/
theorem recognize_afterAll_iff
    (ts : TokenSequence)
    (requests : List Parser.Request)
    (n : NonTerminal) :
    let p := (Parser.ofSequence ts).afterAll requests
    (∀ last,
        ((p.recognize n).error? = none ∧
            (p.recognize n).parser = Parser.before ts last) ↔
          ts.HoldsPhrase n p.cursor last) ∧
      (∀ last other,
        ts.HoldsPhrase n p.cursor last →
          ts.HoldsPhrase n p.cursor other → last = other) ∧
      ((∀ last, ¬ ts.HoldsPhrase n p.cursor last) →
        ∃ e, (p.recognize n).error? = some e) := by
  intro p
  rcases Parser.exists_afterAll_eq ts requests with
    ⟨cursor, hBody, hAfter⟩
  have hParser : p = Parser.before ts p.cursor := by
    rw [show p = Parser.before ts cursor from hAfter]
    rfl
  have hCursor : p.cursor ≤ ts.body.length := by
    rw [show p = Parser.before ts cursor from hAfter]
    exact hBody
  have hIff := recognize_before_iff hCursor n
  rw [← hParser] at hIff
  refine ⟨hIff, ?_, ?_⟩
  · intro last other hFirst hSecond
    have hSame :=
      ((hIff last).mpr hFirst).2.symm.trans
        ((hIff other).mpr hSecond).2
    exact congrArg Parser.cursor hSame
  · intro hNone
    cases hError : (p.recognize n).error? with
    | some e =>
        exact ⟨e, rfl⟩
    | none =>
        rcases Parser.exists_parser_run_eq hCursor [.phrase n]
          with ⟨last, _, _, hEnd⟩
        rw [← hParser] at hEnd
        exact absurd ((hIff last).mp ⟨hError, hEnd⟩)
          (hNone last)

end TokenSequence

end IntDecl
