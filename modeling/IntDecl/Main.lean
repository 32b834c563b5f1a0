import IntDecl.Demo

/-
  This file is the command line: it prints the listing of the
  demonstration.
-/

------------------------------------------------------------
-- The Command Line
------------------------------------------------------------

/- Prints the demonstration; a failure goes to standard error. -/
def main : IO UInt32 := do
  match IntDecl.Demo.output with
  | .ok text =>
      IO.print text
      return 0
  | .error report =>
      IO.eprint report
      return 1
