import IntDecl.Compilation

/-
  This file compiles a sample source and lists its tokens.

  Key definitions include:
    * `Demo.source`
    * `Demo.listing`
    * `Demo.output`
-/

------------------------------------------------------------
-- The Demonstration
------------------------------------------------------------

namespace IntDecl

namespace Demo

/- The source that the demonstration compiles. -/
def source : String :=
  "int x = (2 + 3) * 4;"

/- The tokens as read and after folding, under headings. -/
def listing (c : Compilation) : String :=
  "Tokens:\n" ++ c.tokens.display ++ "\n\n" ++
    "Optimized tokens:\n" ++ c.optimized.display ++ "\n"

/- What the demonstration prints, or the report it fails with. -/
def output : Except String String :=
  match compile {} source with
  | .ok c => .ok (listing c)
  | .error e => .error (e.report source)

end Demo

end IntDecl
