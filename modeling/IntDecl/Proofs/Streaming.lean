import IntDecl.Proofs.Tiling

/-
  This file follows a stream through a schedule, a series of
  requests each of which goes on where the one before it has
  stopped.

  However the requests follow one another, the tokens that
  they hand out are those of the source, in order and each
  of them once, and the stream stands behind the last of them
  until it has found that none is left.

  Key definitions include:
    * `TokenStream.Request`
    * `TokenStream.Reply`
    * `TokenStream.respond`
    * `TokenStream.Coherent`

  Key theorems include:
    * `TokenStream.Reached.respond`
    * `TokenStream.Reached.respondAll`
    * `TokenStream.exists_replicate_next`
    * `TokenStream.coherent_afterAll`
-/

------------------------------------------------------------
-- Requests
------------------------------------------------------------

namespace IntDecl

namespace TokenStream

/-
  What is asked of a stream: the next token, the next token
  of a copy, all tokens that are left, or the position.
-/
inductive Request where
| next
| peek
| rest
| offset
deriving DecidableEq, Repr

/-
  What is answered, always with the position behind it. A copy
  that has been read has a position of its own.
-/
inductive Reply where
| next (token? : Option Token) (offset : Nat)
| peek (token? : Option Token) (offset copyOffset : Nat)
| rest (tokens : List Token) (offset : Nat)
| offset (offset : Nat)
deriving DecidableEq, Repr

/- The reply to a request and the stream behind it. -/
def respond
    (s : TokenStream) :
    Request → Reply × TokenStream
| .next => (.next s.next.1 s.next.2.offset, s.next.2)
| .peek => (.peek s.next.1 s.offset s.next.2.offset, s)
| .rest => (.rest s.remaining s.exhausted.offset, s.exhausted)
| .offset => (.offset s.offset, s)

/- The replies to the requests of a schedule. -/
def respondAll : TokenStream → List Request → List Reply
| _, [] => []
| s, request :: requests =>
    (s.respond request).1 ::
      respondAll (s.respond request).2 requests

/- The stream behind the requests of a schedule. -/
def afterAll : TokenStream → List Request → TokenStream
| s, [] => s
| s, request :: requests =>
    afterAll (s.respond request).2 requests

end TokenStream

end IntDecl

------------------------------------------------------------
-- Replies
------------------------------------------------------------

namespace IntDecl

namespace Token

/- Where the last of some tokens stops, at first the start. -/
def lastStop (tokens : List Token) : Nat :=
  (tokens.getLast?.map fun token => token.span.stop).getD 0

end Token

namespace TokenStream

namespace Reply

/- The tokens that a reply hands out. Those of a copy stay. -/
def tokens : Reply → List Token
| .next token? _ => token?.toList
| .rest tokens _ => tokens
| _ => []

/- A reply after which no token is left. -/
def Ends : Reply → Prop
| .next none _ => True
| .rest _ _ => True
| _ => False

/- The tokens that some replies hand out. -/
def given (replies : List Reply) : List Token :=
  replies.flatMap tokens

/- No token is left behind one of some replies. -/
def Ended (replies : List Reply) : Prop :=
  ∃ reply ∈ replies, reply.Ends

/- The tokens of one more reply come last. -/
theorem given_concat
    (replies : List Reply)
    (reply : Reply) :
    given (replies ++ [reply]) =
      given replies ++ reply.tokens := by
  simp [given]

/- One more reply may be the one that ends a schedule. -/
theorem ended_concat_iff
    (replies : List Reply)
    (reply : Reply) :
    Ended (replies ++ [reply]) ↔
      Ended replies ∨ reply.Ends := by
  simp [Ended, or_and_right, exists_or]

end Reply

end TokenStream

end IntDecl

------------------------------------------------------------
-- The Next Token
------------------------------------------------------------

namespace IntDecl

namespace TokenStream

/- No token is found in a gap, and its end is reached. -/
theorem next_of_isGap
    {s : TokenStream}
    (hGap : Lexeme.IsGap s.rest) :
    s.next = (none, s.exhausted) := by
  rw [next, step_of_isGap hGap]
  rfl

/- The token that a stream meets is found and passed. -/
theorem Meets.next_eq
    {s : TokenStream}
    {gap rest : List Char}
    {l : Lexeme}
    (hMeets : s.Meets gap l rest) :
    s.next =
      (some ⟨l, ⟨s.offset + Text.byteLength gap, l.size⟩⟩,
        s.past gap l rest) := by
  rw [next, hMeets.step_eq]

/- No token is left where no text is. -/
theorem isGap_of_rest_nil
    {s : TokenStream}
    (hRest : s.rest = []) :
    Lexeme.IsGap s.rest := by
  rw [hRest]
  exact List.forall_mem_nil _

/- Nothing is left at the end of the source. -/
theorem remaining_exhausted
    (s : TokenStream) :
    s.exhausted.remaining = [] :=
  remaining_of_isGap (isGap_of_rest_nil rfl)

/- At the end of the source a stream stays where it is. -/
theorem next_of_rest_nil
    {s : TokenStream}
    (hRest : s.rest = []) :
    s.next = (none, s) := by
  have hEnd : s.exhausted = s := by
    rcases s with ⟨rest, offset⟩
    cases hRest
    rfl
  rw [next_of_isGap (isGap_of_rest_nil hRest), hEnd]

/-
  All tokens that are left are those that one request for the
  next token after the other hands out, up to the first one
  that finds none.
-/
theorem exists_replicate_next
    (s : TokenStream) :
    ∃ n,
      Reply.given
          (s.respondAll (List.replicate (n + 1) .next)) =
        s.remaining ∧
      s.afterAll (List.replicate (n + 1) .next) =
        s.exhausted ∧
      ¬ Reply.Ended
          (s.respondAll (List.replicate n .next)) ∧
      Reply.Ended
        (s.respondAll (List.replicate (n + 1) .next)) := by
  induction s using meets_induction with
  | gap s hGap =>
      have hReply :
          s.respond .next =
            (.next none s.exhausted.offset, s.exhausted) := by
        rw [respond, next_of_isGap hGap]
      refine ⟨0, ?_, ?_, ?_, ?_⟩
      · rw [remaining_of_isGap hGap, List.replicate_one,
          respondAll, hReply]
        rfl
      · rw [List.replicate_one, afterAll, hReply]
        rfl
      · intro hEnded
        rcases hEnded with ⟨reply, hMem, _⟩
        cases hMem
      · rw [List.replicate_one, respondAll, hReply]
        exact ⟨_, List.mem_cons_self, trivial⟩
  | lexeme s gap l rest hMeets ih =>
      rcases ih with ⟨n, hGiven, hAfter, hBefore, hEnded⟩
      have hReply :
          s.respond .next =
            (.next
              (some ⟨l,
                ⟨s.offset + Text.byteLength gap, l.size⟩⟩)
              (s.past gap l rest).offset,
            s.past gap l rest) := by
        rw [respond, hMeets.next_eq]
      refine ⟨n + 1, ?_, ?_, ?_, ?_⟩
      · rw [List.replicate_succ, respondAll, hReply,
          hMeets.remaining_eq, ← hGiven]
        rfl
      · rw [List.replicate_succ, afterAll, hReply, hAfter,
          exhausted, exhausted, hMeets.text]
        simp [past, Lexeme.size, Nat.add_assoc]
      · rw [List.replicate_succ, respondAll, hReply]
        intro hLater
        rcases hLater with ⟨reply, hMem, hEnds⟩
        rcases List.mem_cons.mp hMem with hFirst | hRest
        · rw [hFirst] at hEnds
          exact hEnds
        · exact hBefore ⟨reply, hRest, hEnds⟩
      · rw [List.replicate_succ, respondAll, hReply]
        rcases hEnded with ⟨reply, hMem, hEnds⟩
        exact ⟨reply, List.mem_cons_of_mem _ hMem, hEnds⟩

end TokenStream

end IntDecl

------------------------------------------------------------
-- What A Schedule Reaches
------------------------------------------------------------

namespace IntDecl

namespace TokenStream

/-
  A stream that some replies have led to on a source. What is
  unread is the end of the source, the tokens in it are those
  that have not been handed out, and nothing is unread once a
  reply has found no token left. Before that, the stream
  stands where the last token stops.
-/
structure Reached
    (src : String)
    (replies : List Reply)
    (s : TokenStream) : Prop where
  text :
    ∃ before, src.toList = before ++ s.rest ∧
      s.offset = Text.byteLength before
  tokens :
    Reply.given replies ++ s.remaining =
      (TokenSequence.ofSource src).body
  ended : Reply.Ended replies → s.rest = []
  behind :
    ¬ Reply.Ended replies →
      s.offset = Token.lastStop (Reply.given replies)

/- Every schedule starts at the start of the source. -/
theorem reached_ofString
    (src : String) :
    Reached src [] (ofString src) where
  text := ⟨[], rfl, rfl⟩
  tokens := rfl
  ended hEnded := by
    rcases hEnded with ⟨reply, hMem, _⟩
    cases hMem
  behind _ := rfl

variable {src : String}
variable {replies : List Reply}
variable {s : TokenStream}

/- A reply that hands out nothing and moves nothing. -/
theorem Reached.unmoved
    (hReached : Reached src replies s)
    {reply : Reply}
    (hTokens : reply.tokens = [])
    (hEnds : ¬ reply.Ends) :
    Reached src (replies ++ [reply]) s := by
  have hGiven :
      Reply.given (replies ++ [reply]) =
        Reply.given replies := by
    rw [Reply.given_concat, hTokens, List.append_nil]
  have hEnded :
      Reply.Ended (replies ++ [reply]) ↔
        Reply.Ended replies := by
    rw [Reply.ended_concat_iff, or_iff_left hEnds]
  constructor
  case text => exact hReached.text
  case tokens =>
    rw [hGiven]
    exact hReached.tokens
  case ended =>
    rw [hEnded]
    exact hReached.ended
  case behind =>
    rw [hEnded, hGiven]
    exact hReached.behind

/- A reply that hands out all tokens that are left. -/
theorem Reached.exhausted
    (hReached : Reached src replies s)
    {reply : Reply}
    (hTokens : reply.tokens = s.remaining)
    (hEnds : reply.Ends) :
    Reached src (replies ++ [reply]) s.exhausted := by
  have hEnded : Reply.Ended (replies ++ [reply]) :=
    (Reply.ended_concat_iff replies reply).mpr (.inr hEnds)
  constructor
  case text =>
    rcases hReached.text with ⟨before, hText, hOffset⟩
    refine ⟨src.toList, (List.append_nil _).symm, ?_⟩
    rw [hText, Text.byteLength_append, ← hOffset]
    rfl
  case tokens =>
    rw [Reply.given_concat, hTokens, remaining_exhausted,
      List.append_nil]
    exact hReached.tokens
  case ended =>
    intro _
    rfl
  case behind =>
    intro hNot
    exact absurd hEnded hNot

/- A reply that hands out the token that the stream meets. -/
theorem Reached.past
    (hReached : Reached src replies s)
    {gap rest : List Char}
    {l : Lexeme}
    (hMeets : s.Meets gap l rest)
    {reply : Reply}
    (hTokens :
      reply.tokens =
        [⟨l, ⟨s.offset + Text.byteLength gap, l.size⟩⟩])
    (hEnds : ¬ reply.Ends) :
    Reached src (replies ++ [reply]) (s.past gap l rest) := by
  have hRunning :
      ¬ Reply.Ended (replies ++ [reply]) := by
    rw [Reply.ended_concat_iff, or_iff_left hEnds]
    intro hEnded
    have hLess := hMeets.length_lt
    rw [hReached.ended hEnded] at hLess
    exact Nat.not_lt_zero _ hLess
  constructor
  case text =>
    rcases hReached.text with ⟨before, hText, hOffset⟩
    refine ⟨before ++ (gap ++ l.text.toList), ?_, ?_⟩
    · rw [hText, hMeets.text]
      simp [TokenStream.past]
    · simp [TokenStream.past, Lexeme.size, hOffset,
        Nat.add_assoc]
  case tokens =>
    rw [Reply.given_concat, hTokens, List.append_assoc,
      List.singleton_append, ← hMeets.remaining_eq]
    exact hReached.tokens
  case ended =>
    intro hEnded
    exact absurd hEnded hRunning
  case behind =>
    intro _
    rw [Reply.given_concat, hTokens, Token.lastStop,
      List.getLast?_concat]
    rfl

/- One request leads on from where a schedule has led. -/
theorem Reached.respond
    (hReached : Reached src replies s)
    (request : Request) :
    Reached src (replies ++ [(s.respond request).1])
      (s.respond request).2 := by
  cases request with
  | next =>
      rcases s.isGap_or_meets with
        hGap | ⟨gap, l, rest, hMeets⟩
      · rw [TokenStream.respond, next_of_isGap hGap]
        refine hReached.exhausted ?_ trivial
        rw [remaining_of_isGap hGap]
        rfl
      · rw [TokenStream.respond, hMeets.next_eq]
        exact hReached.past hMeets rfl id
  | peek =>
      exact hReached.unmoved rfl id
  | rest =>
      exact hReached.exhausted rfl trivial
  | offset =>
      exact hReached.unmoved rfl id

/- A whole schedule leads on from where another has led. -/
theorem Reached.respondAll
    (hReached : Reached src replies s)
    (requests : List Request) :
    Reached src (replies ++ s.respondAll requests)
      (s.afterAll requests) := by
  induction requests generalizing replies s with
  | nil =>
      rw [TokenStream.respondAll, List.append_nil]
      exact hReached
  | cons request requests ih =>
      have hLater := ih (hReached.respond request)
      rw [List.append_assoc] at hLater
      exact hLater

end TokenStream

end IntDecl

------------------------------------------------------------
-- Schedules
------------------------------------------------------------

namespace IntDecl

namespace TokenStream

/- Reading from copies and asking for the position. -/
theorem afterAll_of_unmoved
    (s : TokenStream)
    {requests : List Request}
    (hUnmoved : ∀ request ∈ requests,
      request = .peek ∨ request = .offset) :
    s.afterAll requests = s := by
  induction requests with
  | nil =>
      rfl
  | cons request requests ih =>
      rw [List.forall_mem_cons] at hUnmoved
      rcases hUnmoved with ⟨hFirst, hLater⟩
      rcases hFirst with hPeek | hOffset
      · rw [hPeek]
        exact ih hLater
      · rw [hOffset]
        exact ih hLater

/- The position never goes back. -/
theorem offset_le_respond
    (s : TokenStream)
    (request : Request) :
    s.offset ≤ (s.respond request).2.offset := by
  cases request with
  | next =>
      rcases s.isGap_or_meets with
        hGap | ⟨gap, l, rest, hMeets⟩
      · rw [respond, next_of_isGap hGap]
        exact Nat.le_add_right _ _
      · rw [respond, hMeets.next_eq, past]
        exact Nat.le_add_right_of_le (Nat.le_add_right _ _)
  | peek | offset =>
      exact Nat.le_refl _
  | rest =>
      exact Nat.le_add_right _ _

/-
  What holds of the replies of a schedule on a source and of
  the stream behind them. The tokens handed out are the first
  ones of the source, and all of them once none was left. The
  position is a boundary between characters of the source; it
  is where the last token stops, and from the end of the
  schedule on that of the source, where nothing is found and
  nothing changes any more. It does not go back. A copy finds
  what the stream will find. All tokens that are left are
  those that are found one after the other.
-/
structure Coherent
    (src : String)
    (replies : List Reply)
    (s : TokenStream) : Prop where
  first :
    Reply.given replies <+: (TokenSequence.ofSource src).body
  whole :
    Reply.Ended replies →
      Reply.given replies = (TokenSequence.ofSource src).body
  boundary : String.Pos.Raw.IsValid src ⟨s.offset⟩
  within : s.offset ≤ src.utf8ByteSize
  behind :
    ¬ Reply.Ended replies →
      s.offset = Token.lastStop (Reply.given replies)
  ended :
    Reply.Ended replies →
      s.offset = src.utf8ByteSize ∧
        s.respond .next = (.next none s.offset, s)
  onward :
    ∀ request, s.offset ≤ (s.respond request).2.offset
  peeked :
    ∀ requests, (∀ request ∈ requests,
        request = .peek ∨ request = .offset) →
      ∃ token? position,
        s.respond .peek = (.peek token? s.offset position, s) ∧
          ((s.afterAll requests).respond .next).1 =
            .next token? position
  drained :
    ∃ n,
      (s.respond .rest).1.tokens =
          Reply.given
            (s.respondAll (List.replicate (n + 1) .next)) ∧
        (s.respond .rest).2 =
          s.afterAll (List.replicate (n + 1) .next) ∧
        ¬ Reply.Ended
          (s.respondAll (List.replicate n .next)) ∧
        Reply.Ended
          (s.respondAll (List.replicate (n + 1) .next))

/- What some replies have led to is coherent with them. -/
theorem Reached.coherent
    {src : String}
    {replies : List Reply}
    {s : TokenStream}
    (hReached : Reached src replies s) :
    Coherent src replies s := by
  have hTokens := hReached.tokens
  rcases hReached.text with ⟨before, hText, hOffset⟩
  have hSize :
      src.utf8ByteSize =
        s.offset + Text.byteLength s.rest := by
    rw [← Text.byteLength_toList, hText,
      Text.byteLength_append, hOffset]
  constructor
  case first =>
    exact ⟨s.remaining, hTokens⟩
  case whole =>
    intro hEnded
    have hNone : s.remaining = [] :=
      remaining_of_isGap
        (isGap_of_rest_nil (hReached.ended hEnded))
    rw [← hTokens, hNone, List.append_nil]
  case boundary =>
    rw [hOffset]
    exact Text.isValid_byteLength hText
  case within =>
    rw [hSize]
    exact Nat.le_add_right _ _
  case behind =>
    exact hReached.behind
  case ended =>
    intro hEnded
    have hRest := hReached.ended hEnded
    constructor
    · rw [hSize, hRest]
      rfl
    · rw [TokenStream.respond, next_of_rest_nil hRest]
  case onward =>
    exact s.offset_le_respond
  case peeked =>
    intro requests hUnmoved
    rw [s.afterAll_of_unmoved hUnmoved]
    exact ⟨s.next.1, s.next.2.offset, rfl, rfl⟩
  case drained =>
    rcases s.exists_replicate_next with
      ⟨n, hGiven, hAfter, hBefore, hEnded⟩
    exact ⟨n, hGiven.symm, hAfter.symm, hBefore, hEnded⟩

/-
  Every schedule on a source is coherent at every point. What
  it hands out up to there are the first tokens of the source,
  whatever was asked for in between.
-/
theorem coherent_afterAll
    (src : String)
    (requests : List Request) :
    Coherent src ((ofString src).respondAll requests)
      ((ofString src).afterAll requests) :=
  ((reached_ofString src).respondAll requests).coherent

end TokenStream

end IntDecl
