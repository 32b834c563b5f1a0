import IntDecl.Log

/-
  This file compiles sources: they are read, recognized,
  checked and folded, and all of it is logged.

  Key definitions include:
    * `Options`
    * `Compilation`
    * `Compilation.ofTokens`
    * `Compilation.log`
    * `compile`
    * `compileLog`
-/

------------------------------------------------------------
-- Options
------------------------------------------------------------

namespace IntDecl

/-
  Whether declarations are checked and whether additions are
  folded.
-/
structure Options where
  checkDeclarations : Bool := true
  foldConstants : Bool := true
deriving DecidableEq, Repr

namespace Options

/- The options with the check of declarations on or off. -/
def withCheck
    (options : Options)
    (enabled : Bool) :
    Options :=
  { options with checkDeclarations := enabled }

/- The options with folding on or off. -/
def withFolding
    (options : Options)
    (enabled : Bool) :
    Options :=
  { options with foldConstants := enabled }

end Options

end IntDecl

------------------------------------------------------------
-- Logs Of The Stages
------------------------------------------------------------

namespace IntDecl

namespace TokenSequence

/-
  Checks that every variable in use is declared. A program
  declares one variable and has no way to name another, so
  there is no error to find.
-/
def check (_ : TokenSequence) : Except Empty Unit :=
  .ok ()

/- What is logged while a source is read. -/
def readLog (src : String) : List Record :=
  Record.enclose
    [.tokenize (Text.byteLength src.toList)]
    (Record.ofEntries
      ((TokenStream.ofString src).events.map .read ++
        [.readAll (ofSource src).size]))

/- What is logged while a sequence is recognized. -/
def parseLog (ts : TokenSequence) : List Record :=
  Record.ofEntries (ts.parse.trace.map .parse)

/- What is logged while a sequence is checked. -/
def checkLog (ts : TokenSequence) : List Record :=
  Record.enclose [.check]
    (Record.ofEntries [.checked ts.size])

/- What is logged while a sequence is folded. -/
def foldLog (ts : TokenSequence) : List Record :=
  Record.enclose [.fold ts.size]
    (Record.ofEntries (ts.folded.events.map .fold))

end TokenSequence

end IntDecl

------------------------------------------------------------
-- Compilations
------------------------------------------------------------

namespace IntDecl

/- The tokens of a source as read and after folding. -/
structure Compilation where
  tokens : TokenSequence
  optimized : TokenSequence
deriving DecidableEq

namespace Compilation

/- The tokens read and, if the options ask for it, folded. -/
def ofTokens
    (options : Options)
    (ts : TokenSequence) :
    Compilation where
  tokens := ts
  optimized := if options.foldConstants then ts.fold else ts

/- What is logged once a sequence is known to be a program. -/
def log
    (options : Options)
    (ts : TokenSequence) :
    List Record :=
  (if options.checkDeclarations then
    Record.enclose [.semanticCheck] ts.checkLog
  else []) ++
  (if options.foldConstants then
    Record.enclose [.constantFold] ts.foldLog
  else []) ++
  Record.ofEntries
    [.compiled ts.size (ofTokens options ts).optimized.size]

end Compilation

/-
  The result of compiling a source: the tokens, or the first
  syntax error. A check that is off is a check without errors.
-/
def compile
    (options : Options)
    (src : String) :
    Except SyntaxError Compilation :=
  let ts := TokenSequence.ofSource src
  match ts.syntaxError? with
  | some e => .error e
  | none =>
      match if options.checkDeclarations then ts.check
        else .ok () with
      | .error e => nomatch e
      | .ok () => .ok (Compilation.ofTokens options ts)

/- What is logged while a source is compiled, in order. -/
def compileLog
    (options : Options)
    (src : String) :
    List Record :=
  let ts := TokenSequence.ofSource src
  Record.enclose [.compile (Text.byteLength src.toList)]
    (Record.enclose [.lex] (TokenSequence.readLog src) ++
      Record.enclose [.parse] ts.parseLog ++
      match ts.syntaxError? with
      | some _ => []
      | none => Compilation.log options ts)

end IntDecl
