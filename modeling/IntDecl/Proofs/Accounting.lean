import IntDecl.Proofs.Logging
import IntDecl.Proofs.Scanning

/-
  This file accounts for every character of a source.

  The log of reading names each character that is not blank
  once and in order, as part of a token or as junk. Junk is
  reported in one piece for each longest run of it, whatever
  stands around the run.

  Key definitions include:
    * `Text.Runs`
    * `Lexeme.isJunk`
    * `Entry.part?`
    * `Entry.skipped?`

  Key theorems include:
    * `Text.Runs.unique`
    * `Text.Runs.flatten_eq`
    * `Text.Runs.append`
    * `Text.runs_splitOnP`
    * `TokenStream.flatMap_part`
    * `TokenStream.exists_runs_junk`
    * `accounts_compileLog`
-/

------------------------------------------------------------
-- Longest Runs
------------------------------------------------------------

namespace IntDecl

namespace Text

/-
  The longest runs of characters of a kind in a text, in
  order: there are none, or other characters come first, then
  a run that is not empty and that the next character does
  not go on, then the runs of the rest.
-/
inductive Runs (p : Char → Bool) :
    List Char → List (List Char) → Prop where
| none
    {cs : List Char}
    (hNone : ∀ c ∈ cs, p c = false) :
    Runs p cs []
| run
    {before run after : List Char}
    {others : List (List Char)}
    (hBefore : ∀ c ∈ before, p c = false)
    (hNonempty : run ≠ [])
    (hRun : ∀ c ∈ run, p c = true)
    (hAfter : ∀ c ∈ after.head?, p c = false)
    (hOthers : Runs p after others) :
    Runs p (before ++ (run ++ after)) (run :: others)

variable {p q : Char → Bool}
variable {cs first second : List Char}
variable {runs others : List (List Char)}

/-
  Of a text that begins with a run, other characters apart,
  the run and what follows it can be told.
-/
theorem divide_at_run
    {before run after : List Char}
    (hBefore : ∀ c ∈ before, p c = false)
    (hNonempty : run ≠ [])
    (hRun : ∀ c ∈ run, p c = true)
    (hAfter : ∀ c ∈ after.head?, p c = false) :
    let rest :=
      (before ++ (run ++ after)).dropWhile fun c => !p c
    rest.takeWhile p = run ∧ rest.dropWhile p = after := by
  intro rest
  have hRest : rest = run ++ after := by
    apply dropWhile_run
    · intro c hMem
      rw [hBefore c hMem]
      rfl
    · rcases List.exists_cons_of_ne_nil hNonempty with
        ⟨c, cs, hCons⟩
      rw [hCons, List.forall_mem_cons] at hRun
      intro d hHead
      rw [hCons] at hHead
      cases hHead
      rw [hRun.1]
      rfl
  rw [hRest]
  exact ⟨takeWhile_run hRun hAfter, dropWhile_run hRun hAfter⟩

/- A text with a run in it is not without the kind. -/
theorem not_none_of_run
    {before run after : List Char}
    (hNonempty : run ≠ [])
    (hRun : ∀ c ∈ run, p c = true) :
    ¬ ∀ c ∈ before ++ (run ++ after), p c = false := by
  intro hNone
  rcases List.exists_mem_of_ne_nil run hNonempty with
    ⟨c, hMem⟩
  have hNot := hNone c (by simp [hMem])
  rw [hRun c hMem] at hNot
  cases hNot

/- A text has its longest runs in one way only. -/
theorem Runs.unique
    (hRuns : Runs p cs runs)
    (hOthers : Runs p cs others) :
    runs = others := by
  induction hRuns generalizing others with
  | none hNone =>
      cases hOthers with
      | none _ =>
          rfl
      | run _ hNonempty hRun _ _ =>
          exact absurd hNone (not_none_of_run hNonempty hRun)
  | @run before run after later hBefore hNonempty hRun
      hAfter _ ih =>
      generalize hText : before ++ (run ++ after) = text
        at hOthers
      cases hOthers with
      | none hNone =>
          rw [← hText] at hNone
          exact absurd hNone (not_none_of_run hNonempty hRun)
      | run hFront hFilled hOther hBack hRest =>
          rcases divide_at_run hBefore hNonempty hRun hAfter
            with ⟨hTake, hDrop⟩
          rcases divide_at_run hFront hFilled hOther hBack
            with ⟨hTakeOther, hDropOther⟩
          rw [hText] at hTake hDrop
          rw [hTake] at hTakeOther
          rw [hDrop] at hDropOther
          rw [hTakeOther, ih (hDropOther ▸ hRest)]

/- The longest runs hold all characters of their kind. -/
theorem Runs.flatten_eq
    (hRuns : Runs p cs runs) :
    runs.flatten = cs.filter p := by
  induction hRuns with
  | none hNone =>
      rw [List.flatten_nil, eq_comm, List.filter_eq_nil_iff]
      intro c hMem
      rw [hNone c hMem]
      exact Bool.false_ne_true
  | run hBefore _ hRun _ _ ih =>
      have hFront := List.filter_eq_nil_iff.mpr
        fun c hMem => Bool.eq_false_iff.mp (hBefore c hMem)
      rw [List.flatten_cons, ih, List.filter_append,
        List.filter_append, hFront,
        List.filter_eq_self.mpr hRun, List.nil_append]

/- Other characters in front of a text change no run. -/
theorem Runs.with_gap
    {gap : List Char}
    (hGap : ∀ c ∈ gap, p c = false)
    (hRuns : Runs p cs runs) :
    Runs p (gap ++ cs) runs := by
  cases hRuns with
  | none hNone =>
      exact .none (List.forall_mem_append.mpr ⟨hGap, hNone⟩)
  | run hBefore hNonempty hRun hAfter hOthers =>
      rw [← List.append_assoc]
      exact .run
        (List.forall_mem_append.mpr ⟨hGap, hBefore⟩)
        hNonempty hRun hAfter hOthers

/-
  The runs of a text go over into those of a text behind it,
  if it does not begin with a character of the kind.
-/
theorem Runs.append
    (hFirst : Runs p first runs)
    (hBorder : ∀ c ∈ second.head?, p c = false)
    (hSecond : Runs p second others) :
    Runs p (first ++ second) (runs ++ others) := by
  induction hFirst with
  | none hNone =>
      exact hSecond.with_gap hNone
  | @run before run after later hBefore hNonempty hRun
      hAfter _ ih =>
      rw [List.append_assoc, List.append_assoc,
        List.cons_append]
      refine .run hBefore hNonempty hRun ?_ ih
      cases after with
      | nil =>
          exact hBorder
      | cons c after =>
          exact hAfter

/- A text of one kind is one run, unless it is empty. -/
theorem runs_of_all
    (hAll : ∀ c ∈ cs, p c = true) :
    Runs p cs ([cs].filter fun run => !run.isEmpty) := by
  cases cs with
  | nil =>
      exact .none (by simp)
  | cons c cs =>
      have hRun :
          Runs p ([] ++ ((c :: cs) ++ [])) [c :: cs] :=
        .run (by simp) (List.cons_ne_nil c cs) hAll
          (by simp) (.none (by simp))
      rwa [List.append_nil] at hRun

/- Only the characters of a text matter for its runs. -/
theorem Runs.congr
    (hRuns : Runs p cs runs)
    (hSame : ∀ c ∈ cs, p c = q c) :
    Runs q cs runs := by
  induction hRuns with
  | none hNone =>
      apply Runs.none
      intro c hMem
      rw [← hSame c hMem]
      exact hNone c hMem
  | @run before run after later hBefore hNonempty hRun
      hAfter _ ih =>
      simp only [List.forall_mem_append] at hSame
      rcases hSame with ⟨hFront, hMiddle, hBack⟩
      refine .run ?_ hNonempty ?_ ?_ (ih hBack)
      · intro c hMem
        rw [← hFront c hMem]
        exact hBefore c hMem
      · intro c hMem
        rw [← hMiddle c hMem]
        exact hRun c hMem
      · intro c hHead
        rw [← hBack c (List.mem_of_mem_head? hHead)]
        exact hAfter c hHead

/-
  The parts between separators that are not empty are the
  longest runs without a separator.
-/
theorem runs_splitOnP
    (separates : Char → Bool)
    (cs : List Char) :
    Runs (fun c => !separates c) cs
      ((cs.splitOnP separates).filter
        fun part => !part.isEmpty) := by
  -- From separator to separator: what stands before the
  -- first one is a run, if anything does.
  generalize hFront :
    (cs.takeWhile fun c => !separates c) = front
  generalize hRest :
    (cs.dropWhile fun c => !separates c) = rest
  have hText : cs = front ++ rest := by
    rw [← hFront, ← hRest, List.takeWhile_append_dropWhile]
  have hRun : ∀ c ∈ front, (!separates c) = true := by
    rw [← hFront]
    exact all_takeWhile _ _
  have hStop : ∀ c ∈ rest.head?, (!separates c) = false := by
    rw [← hRest]
    exact head?_dropWhile _ _
  have hFree : ∀ c ∈ front, separates c = false := by
    simpa using hRun
  cases rest with
  | nil =>
      rw [List.append_nil] at hText
      rw [hText, List.splitOnP_eq_singleton hFree]
      exact runs_of_all hRun
  | cons c after =>
      have hSeparates : separates c = true := by
        simpa using hStop c rfl
      have hLater := runs_splitOnP separates after
      have hBehind :
          Runs (fun c => !separates c) ([c] ++ after) _ :=
        hLater.with_gap (by simpa using hSeparates)
      have hParts :
          (front :: after.splitOnP separates).filter
              (fun part => !part.isEmpty) =
            [front].filter (fun part => !part.isEmpty) ++
              (after.splitOnP separates).filter
                fun part => !part.isEmpty :=
        List.filter_append [front] _
      rw [hText, List.splitOnP_append_cons_of_forall_mem hFree
        c hSeparates, hParts]
      exact (runs_of_all hRun).append hStop hBehind
termination_by cs.length
decreasing_by
  rw [hText]
  simp only [List.length_append, List.length_cons]
  omega

end Text

end IntDecl

------------------------------------------------------------
-- Junk And Tokens
------------------------------------------------------------

namespace IntDecl

namespace Lexeme

/- Tokens begin with visible characters of ASCII. -/
theorem toNat_of_startsToken
    {c : Char}
    (hStarts : startsToken c = true) :
    33 ≤ c.toNat ∧ c.toNat ≤ 122 := by
  unfold startsToken isWordStart at hStarts
  simp only [Bool.or_eq_true, beq_iff_eq] at hStarts
  rcases hStarts with
    ((hLetter | hUnderscore) | hDigit) | hSign
  · unfold Char.isAlpha Char.isUpper Char.isLower at hLetter
    simp only [Bool.or_eq_true, Bool.and_eq_true,
      decide_eq_true_eq, ge_iff_le, UInt32.le_iff_toNat_le,
      Char.reduceVal, UInt32.reduceToNat] at hLetter
    have hCode : c.toNat = c.val.toNat := rfl
    omega
  · rw [hUnderscore]
    decide
  · unfold Char.isDigit at hDigit
    simp only [Bool.and_eq_true, decide_eq_true_eq,
      ge_iff_le, UInt32.le_iff_toNat_le, Char.reduceVal,
      UInt32.reduceToNat] at hDigit
    have hCode : c.toNat = c.val.toNat := rfl
    omega
  · unfold signKind? at hSign
    split at hSign
    case h_7 =>
      cases hSign
    all_goals decide

/- No token begins with a blank. -/
theorem isBlank_of_startsToken
    {c : Char}
    (hStarts : startsToken c = true) :
    Text.isBlank c = false := by
  rcases toNat_of_startsToken hStarts with ⟨hLower, hUpper⟩
  simp only [Text.isBlank, Text.blankRanges, List.any_cons,
    List.any_nil, Bool.or_false, Bool.or_eq_false_iff,
    Bool.and_eq_false_iff, decide_eq_false_iff_not]
  omega

/- Junk is neither blank nor able to begin a token. -/
def isJunk (c : Char) : Bool :=
  !Text.isBlank c && !startsToken c

/- In a gap all that is not blank is junk. -/
theorem isJunk_of_isGap
    {gap : List Char}
    (hGap : IsGap gap) :
    ∀ c ∈ gap, isJunk c = !Text.isBlank c := by
  intro c hMem
  rw [isJunk, hGap c hMem, Bool.not_false, Bool.and_true]

/- Tokens are neither blank nor junk in any part. -/
theorem isBlank_and_isJunk_of_isValid
    {l : Lexeme}
    (hValid : l.IsValid) :
    ∀ c ∈ l.text.toList,
      Text.isBlank c = false ∧ isJunk c = false := by
  intro c hMem
  have hStarts := startsToken_of_isValid hValid c hMem
  constructor
  · exact isBlank_of_startsToken hStarts
  · rw [isJunk, hStarts, Bool.not_true, Bool.and_false]

end Lexeme

end IntDecl

------------------------------------------------------------
-- Events Of Reading
------------------------------------------------------------

namespace IntDecl

namespace ReadEvent

/- The part of the source that an event is about. -/
def part : ReadEvent → String
| skipped junk => junk
| lexed token => token.text

/- The junk that an event reports. -/
def junk? : ReadEvent → Option String
| skipped junk => some junk
| lexed _ => none

end ReadEvent

namespace TokenStream

variable {gap rest : List Char}
variable {s : TokenStream}
variable {l : Lexeme}

/- The junk that is reported for a gap is all it holds. -/
theorem flatten_junkRuns
    (gap : List Char) :
    (junkRuns gap).flatten =
      gap.filter fun c => !Text.isBlank c :=
  (Text.runs_splitOnP Text.isBlank gap).flatten_eq

/- The junk of a gap is reported in its longest runs. -/
theorem runs_junkRuns
    (hGap : Lexeme.IsGap gap) :
    Text.Runs Lexeme.isJunk gap (junkRuns gap) := by
  apply (Text.runs_splitOnP Text.isBlank gap).congr
  intro c hMem
  rw [Lexeme.isJunk_of_isGap hGap c hMem]

/- The events of a stream of a gap report its junk. -/
theorem events_of_isGap
    (hGap : Lexeme.IsGap s.rest) :
    s.events =
      (junkRuns s.rest).map
        (ReadEvent.skipped ∘ String.ofList) := by
  rw [events, scan_of_isGap hGap, List.flatMap_singleton]
  exact List.append_nil _

/- The events of a stream that meets a lexeme. -/
theorem Meets.events_eq
    (hMeets : s.Meets gap l rest) :
    ∃ token : Token,
      token.toLexeme = l ∧
      s.events =
        (junkRuns gap).map
            (ReadEvent.skipped ∘ String.ofList) ++
          ([.lexed token] ++
            (s.past gap l rest).events) := by
  refine ⟨⟨l, ⟨s.offset + Text.byteLength gap, l.size⟩⟩,
    rfl, ?_⟩
  rw [events, hMeets.scan_eq, hMeets.step_eq,
    List.flatMap_cons, ← List.append_assoc]
  rfl

/- The junk of events that report runs of it. -/
theorem filterMap_junk_map_skipped
    (runs : List (List Char)) :
    (runs.map (ReadEvent.skipped ∘ String.ofList)).filterMap
        ReadEvent.junk? =
      runs.map String.ofList := by
  rw [List.filterMap_map]
  exact congrFun List.filterMap_eq_map' runs

/- The parts of events that report runs of junk. -/
theorem flatMap_part_map_skipped
    (runs : List (List Char)) :
    (runs.map
        (ReadEvent.skipped ∘ String.ofList)).flatMap
          (fun event => event.part.toList) =
      runs.flatten := by
  induction runs with
  | nil =>
      rfl
  | cons run runs ih =>
      rw [List.map_cons, List.flatMap_cons, ih,
        List.flatten_cons]
      exact congrArg (· ++ runs.flatten)
        (String.toList_ofList)

/-
  The parts of a source that the events are about, put
  together, are all of it that is not blank.
-/
theorem flatMap_part
    (s : TokenStream) :
    s.events.flatMap (fun event => event.part.toList) =
      s.rest.filter fun c => !Text.isBlank c := by
  induction s using meets_induction with
  | gap s hGap =>
      rw [events_of_isGap hGap, flatMap_part_map_skipped,
        flatten_junkRuns]
  | lexeme s gap l rest hMeets ih =>
      rcases hMeets.events_eq with ⟨token, rfl, hEvents⟩
      have hToken :
          (token.text.toList.filter fun c =>
            !Text.isBlank c) = token.text.toList := by
        rw [List.filter_eq_self]
        intro c hMem
        rw [(Lexeme.isBlank_and_isJunk_of_isValid
          hMeets.valid c hMem).1]
        rfl
      rw [hEvents, List.flatMap_append, List.flatMap_append,
        flatMap_part_map_skipped, flatten_junkRuns, ih,
        hMeets.text, List.filter_append, List.filter_append,
        hToken, List.flatMap_singleton]
      rfl

/-
  The junk that the events report is that of the source, in
  its longest runs.
-/
theorem exists_runs_junk
    (s : TokenStream) :
    ∃ runs,
      Text.Runs Lexeme.isJunk s.rest runs ∧
      s.events.filterMap ReadEvent.junk? =
        runs.map String.ofList := by
  induction s using meets_induction with
  | gap s hGap =>
      refine ⟨junkRuns s.rest, runs_junkRuns hGap, ?_⟩
      rw [events_of_isGap hGap, filterMap_junk_map_skipped]
  | lexeme s gap l rest hMeets ih =>
      rcases ih with ⟨runs, hRuns, hJunk⟩
      rcases hMeets.events_eq with ⟨token, rfl, hEvents⟩
      have hToken :
          ∀ c ∈ token.text.toList,
            Lexeme.isJunk c = false := by
        intro c hMem
        exact (Lexeme.isBlank_and_isJunk_of_isValid
          hMeets.valid c hMem).2
      refine ⟨junkRuns gap ++ runs, ?_, ?_⟩
      · rw [hMeets.text]
        apply (runs_junkRuns hMeets.isGap).append
        · intro c hHead
          rcases Lexeme.exists_head_of_isValid hMeets.valid
            with ⟨first, others, hText, _⟩
          rw [hText] at hHead hToken
          cases hHead
          exact hToken c List.mem_cons_self
        · exact hRuns.with_gap hToken
      · rw [hEvents, List.filterMap_append,
          List.filterMap_append, filterMap_junk_map_skipped,
          hJunk, List.map_append]
        rfl

end TokenStream

end IntDecl

------------------------------------------------------------
-- Entries Of Reading
------------------------------------------------------------

namespace IntDecl

namespace Entry

/- The part of the source that an entry is about. -/
def part? : Entry → Option String
| .read event => some event.part
| _ => none

/- What an entry gives as skipped. -/
def skipped? (entry : Entry) : Option FieldValue :=
  entry.fields.lookup "skipped"

/- The parts of entries that are the events of reading. -/
theorem filterMap_part_map_read
    (events : List ReadEvent)
    (count : Nat) :
    (events.map read ++ [readAll count]).filterMap part? =
      events.map ReadEvent.part := by
  rw [List.filterMap_append, List.filterMap_map]
  exact (List.append_nil _).trans
    (congrFun List.filterMap_eq_map' events)

/- What is given as skipped is the junk of the events. -/
theorem filterMap_skipped_map_read
    (events : List ReadEvent)
    (count : Nat) :
    (events.map read ++ [readAll count]).filterMap skipped? =
      (events.filterMap ReadEvent.junk?).map .text := by
  have hEvent :
      skipped? ∘ read =
        fun event => event.junk?.map FieldValue.text := by
    funext event
    cases event <;> rfl
  rw [List.filterMap_append, List.filterMap_map, hEvent,
    List.map_filterMap]
  exact List.append_nil _

end Entry

/-
  Reading accounts for every character of a source. In the
  log of reading, the junk that was skipped and the texts of
  the tokens together are the source without its blanks, and
  the fields that name what was skipped are the longest runs
  of junk in the source, each once and in order.
-/
theorem accounts_compileLog
    (options : Options)
    (src : String) :
    let entries :=
      Record.within .lex
        (Record.atLeast .trace (compileLog options src))
    String.join (entries.filterMap Entry.part?) =
        String.ofList
          (src.toList.filter fun c => !Text.isBlank c) ∧
      ∃ runs,
        Text.Runs Lexeme.isJunk src.toList runs ∧
          (∀ others,
            Text.Runs Lexeme.isJunk src.toList others →
              others = runs) ∧
          entries.filterMap Entry.skipped? =
            runs.map fun run =>
              .text (String.ofList run) := by
  intro entries
  have hEntries : entries = _ :=
    within_lex_compileLog options src
  rcases (TokenStream.ofString src).exists_runs_junk with
    ⟨runs, hRuns, hJunk⟩
  constructor
  · rw [hEntries, Entry.filterMap_part_map_read,
      ← String.toList_inj, String.toList_join,
      String.toList_ofList, List.flatMap_map]
    exact (TokenStream.ofString src).flatMap_part
  · refine ⟨runs, hRuns, ?_, ?_⟩
    · intro others hOthers
      exact hOthers.unique hRuns
    · rw [hEntries, Entry.filterMap_skipped_map_read, hJunk,
        List.map_map]
      rfl

end IntDecl
