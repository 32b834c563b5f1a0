/-
  This file measures, cuts, trims, divides and quotes texts.

  Texts are lists of characters; positions in a source are
  counted in bytes of UTF-8.

  Key definitions include:
    * `Text.byteLength`
    * `Text.takeBytes`
    * `Text.isBlank`
    * `Text.trimEnd`
    * `Text.pieces`
    * `Text.lines`
    * `Text.escape`
    * `Text.quote`

  Key theorems include:
    * `Text.takeBytes_isPrefix`
    * `Text.byteLength_takeBytes_le`
-/

------------------------------------------------------------
-- Byte Lengths
------------------------------------------------------------

namespace IntDecl

namespace Text

/- The number of bytes a text takes in UTF-8. -/
def byteLength : List Char → Nat
| [] => 0
| c :: cs => c.utf8Size + byteLength cs

@[simp] theorem byteLength_nil :
    byteLength [] = 0 := rfl

@[simp] theorem byteLength_cons
    (c : Char)
    (cs : List Char) :
    byteLength (c :: cs) =
      c.utf8Size + byteLength cs := rfl

@[simp] theorem byteLength_append
    (cs ds : List Char) :
    byteLength (cs ++ ds) =
      byteLength cs + byteLength ds := by
  induction cs with
  | nil =>
      simp
  | cons c cs ih =>
      simp only [List.cons_append, byteLength_cons, ih]
      omega

end Text

end IntDecl

------------------------------------------------------------
-- Cutting At A Byte Position
------------------------------------------------------------

namespace IntDecl

namespace Text

/-
  The longest initial part of a text that takes at most
  `budget` bytes. A budget that ends inside a character
  stops before that character, and a budget beyond the end
  gives the whole text.
-/
def takeBytes : Nat → List Char → List Char
| _, [] => []
| budget, c :: cs =>
    if c.utf8Size ≤ budget then
      c :: takeBytes (budget - c.utf8Size) cs
    else
      []

/- Cutting gives an initial part. -/
theorem takeBytes_isPrefix
    (budget : Nat)
    (cs : List Char) :
    takeBytes budget cs <+: cs := by
  induction cs generalizing budget with
  | nil =>
      simp [takeBytes]
  | cons c cs ih =>
      rw [takeBytes]
      split
      · rw [List.cons_prefix_cons]
        exact ⟨rfl, ih _⟩
      · exact List.nil_prefix

/- Cutting stays within its budget. -/
theorem byteLength_takeBytes_le
    (budget : Nat)
    (cs : List Char) :
    byteLength (takeBytes budget cs) ≤ budget := by
  induction cs generalizing budget with
  | nil =>
      simp [takeBytes]
  | cons c cs ih =>
      rw [takeBytes]
      split
      · rename_i hFits
        have hRest := ih (budget - c.utf8Size)
        rw [byteLength_cons]
        omega
      · simp

end Text

end IntDecl

------------------------------------------------------------
-- Blank Characters
------------------------------------------------------------

namespace IntDecl

namespace Text

/-
  The code points with the property White_Space, as closed
  ranges in ascending order.
-/
def blankRanges : List (Nat × Nat) :=
  [(0x09, 0x0D), (0x20, 0x20), (0x85, 0x85),
    (0xA0, 0xA0), (0x1680, 0x1680), (0x2000, 0x200A),
    (0x2028, 0x2029), (0x202F, 0x202F), (0x205F, 0x205F),
    (0x3000, 0x3000)]

/- A character is blank when a range holds its code point. -/
def isBlank (c : Char) : Bool :=
  blankRanges.any fun range =>
    range.1 ≤ c.toNat && c.toNat ≤ range.2

/- A text without the blanks at its end. -/
def trimEnd (cs : List Char) : List Char :=
  (cs.reverse.dropWhile isBlank).reverse

end Text

end IntDecl

------------------------------------------------------------
-- Lines
------------------------------------------------------------

namespace IntDecl

namespace Text

/- The parts of a text before, between and after line feeds. -/
def pieces (cs : List Char) : List (List Char) :=
  cs.splitOn '\n'

/- A piece less the carriage return at its end. -/
def dropReturn (piece : List Char) : List Char :=
  if piece.getLast? = some '\r' then
    piece.dropLast
  else
    piece

/-
  The lines of a text. A line feed ends a line, together with
  a carriage return right before it; text after the last line
  feed is a line only if there is any.
-/
def lines (cs : List Char) : List (List Char) :=
  (pieces cs).dropLast.map dropReturn ++
    (pieces cs).getLast?.toList.filter (· ≠ [])

end Text

end IntDecl

------------------------------------------------------------
-- Quoted Texts
------------------------------------------------------------

namespace IntDecl

namespace Text

/- Control characters lie below space or from DEL to U+009F. -/
def isControl (c : Char) : Bool :=
  c.toNat < 0x20 || (0x7F ≤ c.toNat && c.toNat ≤ 0x9F)

/-
  How a character is written between double quotes. Quote,
  backslash, line feed, carriage return, tab and NUL have
  two-character forms, any other control character is given
  by its code point in lower-case hexadecimal digits, and all
  else stands for itself. That leaves out the characters
  beyond U+009F that cannot be printed or that extend the one
  before them, such as U+00A0, U+00AD, U+0300 and U+200B,
  which a full escape also gives by their code points. No
  token read from a source has such a character in its text.
-/
def escape (c : Char) : List Char :=
  if c = '"' then ['\\', '"']
  else if c = '\\' then ['\\', '\\']
  else if c = '\n' then ['\\', 'n']
  else if c = '\r' then ['\\', 'r']
  else if c = '\t' then ['\\', 't']
  else if c.toNat = 0 then ['\\', '0']
  else if isControl c then
    ['\\', 'u', '\x7b'] ++ Nat.toDigits 16 c.toNat ++ ['\x7d']
  else [c]

/- A text between double quotes, each character escaped. -/
def quote (s : String) : String :=
  String.ofList (['"'] ++ s.toList.flatMap escape ++ ['"'])

end Text

end IntDecl
