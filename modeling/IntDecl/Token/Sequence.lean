import IntDecl.Lexeme.Basic
import IntDecl.Span.Basic

/-
  This file defines tokens, the lexemes of a source together
  with their places, and token sequences, the lists of tokens
  that end with exactly one end mark.

  Two tokens with the same lexeme are the same word of the
  language; where they stand matters for messages only. The
  end mark is not stored among the other tokens of a
  sequence. Its place is a field of its own, so that no
  operation can drop it, move it or add another one.

  Key definitions include:
    * `Token`
    * `Token.endOfInput`
    * `Token.lexemes`
    * `Token.kinds`
    * `TokenSequence`
    * `TokenSequence.tokens`
    * `TokenSequence.Agrees`
    * `TokenSequence.Fault`
    * `TokenSequence.ofTokens`
    * `TokenSequence.replaceWindow`

  Key theorems include:
    * `TokenSequence.size_eq`
    * `TokenSequence.agrees_iff`
-/

------------------------------------------------------------
-- Tokens
------------------------------------------------------------

namespace IntDecl

/- A lexeme and the bytes of the source that it takes. -/
structure Token extends Lexeme where
  span : Span
deriving DecidableEq, Repr

namespace Token

/- The mark that ends a sequence, placed at a span. -/
def endOfInput (span : Span) : Token where
  kind := .endOfInput
  text := ""
  span := span

/- The lexemes of a list of tokens, without the places. -/
def lexemes (tokens : List Token) : List Lexeme :=
  tokens.map toLexeme

/- The kinds of a list of tokens. -/
def kinds (tokens : List Token) : List TokenKind :=
  tokens.map fun token => token.kind

@[simp] theorem lexemes_append
    (first second : List Token) :
    lexemes (first ++ second) =
      lexemes first ++ lexemes second :=
  List.map_append

@[simp] theorem lexemes_cons
    (token : Token)
    (tokens : List Token) :
    lexemes (token :: tokens) =
      token.toLexeme :: lexemes tokens := rfl

/- The kinds of tokens are those of their lexemes. -/
theorem kinds_lexemes
    (tokens : List Token) :
    Lexeme.kinds (lexemes tokens) = kinds tokens :=
  List.map_map

end Token

end IntDecl

------------------------------------------------------------
-- Token Sequences
------------------------------------------------------------

namespace IntDecl

/-
  The tokens of a source in order, none of them an end mark,
  and the place of the end mark after them.
-/
structure TokenSequence where
  body : List Token
  marker : Span
  unmarked : ∀ token ∈ body, token.kind ≠ .endOfInput
deriving DecidableEq

namespace TokenSequence

/- A sequence is given by its tokens and the last place. -/
theorem eq_of_body
    {ts us : TokenSequence}
    (hBody : ts.body = us.body)
    (hMarker : ts.marker = us.marker) :
    ts = us := by
  cases ts
  cases us
  cases hBody
  cases hMarker
  rfl

/- All tokens in order, the end mark last. -/
def tokens (ts : TokenSequence) : List Token :=
  ts.body ++ [Token.endOfInput ts.marker]

/- The lexemes of all tokens. -/
def lexemes (ts : TokenSequence) : List Lexeme :=
  Token.lexemes ts.tokens

/- The kinds of all tokens. -/
def kinds (ts : TokenSequence) : List TokenKind :=
  Token.kinds ts.tokens

/- The number of tokens, with the end mark. -/
def size (ts : TokenSequence) : Nat :=
  ts.tokens.length

/- The end mark counts as one token. -/
theorem size_eq
    (ts : TokenSequence) :
    ts.size = ts.body.length + 1 := by
  simp [size, tokens]

/- A sequence of the end mark alone. -/
def isEmpty (ts : TokenSequence) : Bool :=
  ts.size == 1

/- Two sequences agree if they differ in places only. -/
def Agrees (ts us : TokenSequence) : Prop :=
  ts.lexemes = us.lexemes

instance (ts us : TokenSequence) :
    Decidable (ts.Agrees us) := by
  unfold Agrees
  infer_instance

/- End marks never make a difference. -/
theorem agrees_iff
    (ts us : TokenSequence) :
    ts.Agrees us ↔
      Token.lexemes ts.body = Token.lexemes us.body := by
  simp [Agrees, lexemes, tokens, Token.lexemes,
    Token.endOfInput]

end TokenSequence

end IntDecl

------------------------------------------------------------
-- Texts
------------------------------------------------------------

namespace IntDecl

namespace TokenSequence

/- One line for each token. -/
def display (ts : TokenSequence) : String :=
  "\n".intercalate (ts.lexemes.map Lexeme.display)

/- All tokens on one line. -/
def describe (ts : TokenSequence) : String :=
  "TokenSequence([" ++
    ", ".intercalate (ts.lexemes.map Lexeme.describe) ++ "])"

end TokenSequence

end IntDecl

------------------------------------------------------------
-- Faults
------------------------------------------------------------

namespace IntDecl

namespace TokenSequence

/- The requests that a sequence refuses. -/
inductive Fault where
| misplacedMarker
| invalidWindow (first last size : Nat)
| markerReplacement
| indexOutOfBounds (size index : Nat)
deriving DecidableEq, Repr

/- The message for a refused request. -/
def Fault.message : Fault → String
| .misplacedMarker =>
    "end of input marker may only be placed by the sequence"
| .invalidWindow first last size =>
    "window " ++ toString first ++ ".." ++ toString last ++
      " must be non-empty and may not cover the end marker" ++
      " (len = " ++ toString size ++ ")"
| .markerReplacement =>
    "assertion `left != right` failed\n" ++
      "  left: EndOfInput\n right: EndOfInput"
| .indexOutOfBounds size index =>
    "index out of bounds: the len is " ++ toString size ++
      " but the index is " ++ toString index

end TokenSequence

end IntDecl

------------------------------------------------------------
-- Operations
------------------------------------------------------------

namespace IntDecl

namespace TokenSequence

/-
  The sequence of given tokens with an end mark after them.
  The tokens may not hold an end mark themselves.
-/
def ofTokens
    (tokens : List Token)
    (marker : Span) :
    Except Fault TokenSequence :=
  if hUnmarked :
      ∀ token ∈ tokens, token.kind ≠ .endOfInput then
    .ok ⟨tokens, marker, hUnmarked⟩
  else
    .error .misplacedMarker

/- The token at a position, counted from zero. -/
def get
    (ts : TokenSequence)
    (i : Nat) :
    Except Fault Token :=
  match ts.tokens[i]? with
  | some token => .ok token
  | none => .error (.indexOutOfBounds ts.size i)

/- Parts of a sequence around a token form a sequence. -/
theorem unmarked_splice
    (ts : TokenSequence)
    {token : Token}
    (first last : Nat)
    (hToken : token.kind ≠ .endOfInput) :
    ∀ t ∈ ts.body.take first ++ token :: ts.body.drop last,
      t.kind ≠ .endOfInput := by
  intro t ht
  rw [List.mem_append, List.mem_cons] at ht
  rcases ht with hTake | hEq | hDrop
  · exact ts.unmarked t (List.mem_of_mem_take hTake)
  · subst hEq
    exact hToken
  · exact ts.unmarked t (List.mem_of_mem_drop hDrop)

/-
  A sequence in which one token takes the place of those from
  position `first` up to but without `last`. The window may
  be neither empty nor reach the end mark, and the new token
  may not be an end mark. The window is examined first.
-/
def replaceWindow
    (ts : TokenSequence)
    (first last : Nat)
    (token : Token) :
    Except Fault TokenSequence :=
  if first < last ∧ last < ts.size then
    if hToken : token.kind ≠ .endOfInput then
      .ok ⟨ts.body.take first ++ token :: ts.body.drop last,
        ts.marker, ts.unmarked_splice first last hToken⟩
    else
      .error .markerReplacement
  else
    .error (.invalidWindow first last ts.size)

end TokenSequence

end IntDecl
