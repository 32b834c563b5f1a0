import IntDecl.Lexeme.Reading
import IntDecl.Text
import IntDecl.Token.Sequence

/-
  This file reads a source as a stream of tokens.

  Between two tokens lies a gap, the characters with which no
  token can begin. Gaps are passed over, and their maximal
  parts without blanks are reported as junk.

  Key definitions include:
    * `TokenStream`
    * `TokenStream.step`
    * `TokenStream.next`
    * `TokenStream.scan`
    * `TokenStream.remaining`
    * `ReadEvent`
    * `TokenSequence.ofSource`

  Key theorems include:
    * `TokenStream.gap_append_pastGap`
    * `TokenStream.length_lt_of_token`
    * `TokenStream.kind_ne_endOfInput_of_mem_remaining`
-/

------------------------------------------------------------
-- Streams
------------------------------------------------------------

namespace IntDecl

/-
  The part of a source that has not been read yet and the
  number of bytes before it.
-/
structure TokenStream where
  rest : List Char
  offset : Nat
deriving DecidableEq, Repr

namespace TokenStream

/- The stream at the start of a source. -/
def ofString (src : String) : TokenStream where
  rest := src.toList
  offset := 0

/-
  What one step over a stream meets: a gap, the token after
  it, if there is one, and the stream after both.
-/
structure Step where
  gap : List Char
  token? : Option Token
  after : TokenStream
deriving DecidableEq, Repr

/- The characters before the next token. -/
def gap (s : TokenStream) : List Char :=
  s.rest.takeWhile fun c => !Lexeme.startsToken c

/- The unread text from the next token on. -/
def pastGap (s : TokenStream) : List Char :=
  s.rest.dropWhile fun c => !Lexeme.startsToken c

/- A gap is cut off without loss. -/
theorem gap_append_pastGap
    (s : TokenStream) :
    s.gap ++ s.pastGap = s.rest :=
  List.takeWhile_append_dropWhile

/- The position of the next token, or of the end. -/
def start (s : TokenStream) : Nat :=
  s.offset + Text.byteLength s.gap

/-
  One step over a stream. Where no token is left, the step
  goes to the end of the source.
-/
def step (s : TokenStream) : Step :=
  match Lexeme.read? s.pastGap with
  | some (lexeme, rest) =>
      { gap := s.gap
        token? := some ⟨lexeme, ⟨s.start, lexeme.size⟩⟩
        after := ⟨rest, s.start + lexeme.size⟩ }
  | none =>
      { gap := s.gap
        token? := none
        after := ⟨[], s.start⟩ }

/- The next token and the stream after it. -/
def next (s : TokenStream) : Option Token × TokenStream :=
  (s.step.token?, s.step.after)

end TokenStream

end IntDecl

------------------------------------------------------------
-- Progress
------------------------------------------------------------

namespace IntDecl

namespace TokenStream

/- Reading a token leaves a shorter text. -/
theorem length_lt_of_token
    {s : TokenStream}
    {token : Token}
    (hToken : s.step.token? = some token) :
    s.step.after.rest.length < s.rest.length := by
  have hPast :=
    (s.rest.dropWhile_sublist
      fun c => !Lexeme.startsToken c).length_le
  unfold step at hToken ⊢
  split at hToken
  · rename_i lexeme rest hRead
    have hLess := Lexeme.length_lt_of_read? hRead
    unfold pastGap at hLess
    simp only
    omega
  · cases hToken

/- The end mark is never read off a stream. -/
theorem kind_ne_endOfInput_of_token
    {s : TokenStream}
    {token : Token}
    (hToken : s.step.token? = some token) :
    token.kind ≠ .endOfInput := by
  unfold step at hToken
  split at hToken
  · rename_i lexeme rest hRead
    cases hToken
    exact Lexeme.kind_ne_endOfInput_of_read? hRead
  · cases hToken

end TokenStream

end IntDecl

------------------------------------------------------------
-- Reading To The End
------------------------------------------------------------

namespace IntDecl

namespace TokenStream

/-
  The steps over a stream up to the end of its source. The
  last of them is the only one without a token.
-/
def scan (s : TokenStream) : List Step :=
  match hToken : s.step.token? with
  | some _ =>
      have := length_lt_of_token hToken
      s.step :: scan s.step.after
  | none => [s.step]
termination_by s.rest.length

/- The tokens that are left in a stream. -/
def remaining (s : TokenStream) : List Token :=
  s.scan.filterMap Step.token?

/- The stream at the end of the source. -/
def exhausted (s : TokenStream) : TokenStream where
  rest := []
  offset := s.offset + Text.byteLength s.rest

/- No token left in a stream is an end mark. -/
theorem kind_ne_endOfInput_of_mem_remaining
    (s : TokenStream) :
    ∀ token ∈ s.remaining, token.kind ≠ .endOfInput := by
  intro token hMem
  unfold remaining at hMem
  fun_induction scan s with
  | case1 s first hFirst _ ih =>
      simp only [List.filterMap_cons, hFirst,
        List.mem_cons] at hMem
      rcases hMem with hEq | hLater
      · subst hEq
        exact kind_ne_endOfInput_of_token hFirst
      · exact ih hLater
  | case2 s hNone =>
      simp [hNone] at hMem

end TokenStream

namespace TokenSequence

/- The tokens of a source, the end mark at its end. -/
def ofSource (src : String) : TokenSequence where
  body := (TokenStream.ofString src).remaining
  marker := ⟨Text.byteLength src.toList, 0⟩
  unmarked :=
    TokenStream.kind_ne_endOfInput_of_mem_remaining _

end TokenSequence

end IntDecl

------------------------------------------------------------
-- Events
------------------------------------------------------------

namespace IntDecl

/- What can be reported while a source is read. -/
inductive ReadEvent where
| skipped (junk : String)
| lexed (token : Token)
deriving DecidableEq, Repr

namespace TokenStream

/- The maximal parts of a text without blanks. -/
def junkRuns (gap : List Char) : List (List Char) :=
  (gap.splitOnP Text.isBlank).filter fun run => !run.isEmpty

/- The events of a step: the junk of the gap, the token. -/
def Step.events (step : Step) : List ReadEvent :=
  (junkRuns step.gap).map (ReadEvent.skipped ∘ String.ofList)
    ++ step.token?.toList.map .lexed

/- The events up to the end of the source, in order. -/
def events (s : TokenStream) : List ReadEvent :=
  s.scan.flatMap Step.events

end TokenStream

end IntDecl
