import IntDecl.Span.Basic
import IntDecl.Text

/-
  This file locates spans by line and column and shows them
  within their source: the place, the source line, and a mark
  under the span.

  Key definitions include:
    * `Location`
    * `Location.after`
    * `Span.location`
    * `Span.heading`
    * `Span.sourceLine`
    * `Span.excerpt`
    * `Span.marker`
    * `Span.snippet`
-/

------------------------------------------------------------
-- Locations
------------------------------------------------------------

namespace IntDecl

/-
  A place in a source: a line, counted from one, and a column
  within it, counted in bytes from zero.
-/
structure Location where
  line : Nat
  column : Nat
deriving DecidableEq, Repr

namespace Location

/- The first place of every source. -/
def start : Location where
  line := 1
  column := 0

/- The place right after a character. -/
def advance
    (l : Location)
    (c : Char) :
    Location :=
  if c = '\n' then
    ⟨l.line + 1, 0⟩
  else
    ⟨l.line, l.column + c.utf8Size⟩

/- The place right after a text that starts a source. -/
def after (cs : List Char) : Location :=
  cs.foldl advance start

end Location

namespace Span

/-
  The place where a span begins. An offset inside a character
  is moved back to the start of that character, one beyond
  the source to the end of the source. The same place by
  searching back and counting is `Location.counted`.
-/
def location
    (s : Span)
    (src : String) :
    Location :=
  Location.after (Text.takeBytes s.offset src.toList)

end Span

end IntDecl

------------------------------------------------------------
-- The Lines Of A Snippet
------------------------------------------------------------

namespace IntDecl

namespace Span

/- The place of a span, behind an arrow. -/
def heading
    (s : Span)
    (src : String) :
    String :=
  let place := s.location src
  "  -> " ++ toString place.line ++ ":" ++
    toString place.column

/-
  The source line on which a span begins, without the blanks
  at its end. A span that begins after the last line feed of
  a source has an empty line.
-/
def sourceLine
    (s : Span)
    (src : String) :
    List Char :=
  let line :=
    (Text.lines src.toList)[(s.location src).line - 1]?
  Text.trimEnd (line.getD [])

/- The source line of a span, behind its number. -/
def excerpt
    (s : Span)
    (src : String) :
    String :=
  toString (s.location src).line ++ " | " ++
    String.ofList (s.sourceLine src)

/-
  The mark under a span, one sign for each of its bytes. An
  empty span is shown by a caret at the end of a dashed line.
  The line is indented by as much as the line number and the
  bar after it take.
-/
def marker
    (s : Span)
    (src : String) :
    String :=
  let place := s.location src
  let indent := (toString place.line).length + 3
  let mark :=
    if s.isEmpty then
      List.replicate place.column '-' ++ ['^']
    else
      List.replicate place.column ' ' ++
        List.replicate s.length '~'
  String.ofList (List.replicate indent ' ' ++ mark)

end Span

end IntDecl

------------------------------------------------------------
-- Snippets
------------------------------------------------------------

namespace IntDecl

namespace Span

/- The three lines that show a span, each with a line feed. -/
def snippet
    (s : Span)
    (src : String) :
    String :=
  s.heading src ++ "\n" ++ s.excerpt src ++ "\n" ++
    s.marker src ++ "\n"

end Span

end IntDecl
