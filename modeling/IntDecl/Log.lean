import IntDecl.Folding
import IntDecl.Parser.Run
import IntDecl.Token.Stream

/-
  This file defines the entries of the log, their severity
  and their texts, and log records, entries within scopes.

  Key definitions include:
    * `Severity`
    * `Entry`
    * `Entry.severity`
    * `Entry.message`
    * `Entry.fields`
    * `Scope`
    * `Record`
    * `Record.ofEntries`
    * `Record.enclose`
    * `Record.atLeast`
-/

------------------------------------------------------------
-- Severities
------------------------------------------------------------

namespace IntDecl

/- How much an entry matters, from most to least. -/
inductive Severity where
| error
| warn
| info
| debug
| trace
deriving DecidableEq, Repr

namespace Severity

/- The number of severities that matter more. -/
def rank : Severity → Nat
| .error => 0
| .warn => 1
| .info => 2
| .debug => 3
| .trace => 4

/- The name of a severity in a log. -/
def name : Severity → String
| .error => "ERROR"
| .warn => "WARN"
| .info => "INFO"
| .debug => "DEBUG"
| .trace => "TRACE"

/- Every severity once, the one that matters most first. -/
def all : List Severity :=
  [.error, .warn, .info, .debug, .trace]

end Severity

end IntDecl

------------------------------------------------------------
-- Entries
------------------------------------------------------------

namespace IntDecl

/-
  What a log holds: the events of reading, recognizing and
  folding, and the end of reading, of the check and of the
  whole compilation with the numbers of tokens then.
-/
inductive Entry where
| read (event : ReadEvent)
| readAll (count : Nat)
| parse (event : ParseEvent)
| checked (count : Nat)
| fold (event : FoldEvent)
| compiled (before after : Nat)
deriving DecidableEq, Repr

/- A value that an entry gives under a name. -/
inductive FieldValue where
| text (s : String)
| count (n : Nat)
deriving DecidableEq, Repr

namespace Entry

/- How much an entry matters. -/
def severity : Entry → Severity
| .read (.skipped _) => .debug
| .read (.lexed _) => .trace
| .readAll _ => .debug
| .parse _ => .trace
| .checked _ => .info
| .fold (.folded _ _) => .debug
| .fold (.refused _ _) => .warn
| .compiled _ _ => .debug

/- The text of an entry. -/
def message : Entry → String
| .read (.skipped _) => "skipping unrecognized characters"
| .read (.lexed token) =>
    "lexed " ++ token.describe ++ " at " ++
      token.span.describe
| .readAll count => "lexed " ++ toString count ++ " token(s)"
| .parse (.opened phrase cursor) =>
    "starting parsing " ++ phrase.name ++
      " at cursor=" ++ toString cursor
| .parse (.consumed token cursor) =>
    "consumed " ++ token.describe ++
      ", cursor=" ++ toString cursor
| .parse (.closed phrase cursor ok) =>
    "after parsing " ++ phrase.name ++
      " cursor=" ++ toString cursor ++
      " ok=" ++ (if ok then "true" else "false")
| .checked _ => "variables are properly declared"
| .fold (.folded position sum) =>
    "folding tokens " ++ toString position ++ ".." ++
      toString (position + 3) ++ " into " ++ sum.describe
| .fold (.refused lhs rhs) =>
    "can not fold " ++ lhs ++ " + " ++ rhs ++
      ", the result does not fit in an i64"
| .compiled before after =>
    "compiled " ++ toString before ++
      " token(s) into " ++ toString after ++ " token(s)"

/- The values that an entry gives next to its text. -/
def fields : Entry → List (String × FieldValue)
| .read (.skipped junk) => [("skipped", .text junk)]
| .checked count => [("tokens", .count count)]
| _ => []

end Entry

end IntDecl

------------------------------------------------------------
-- Scopes
------------------------------------------------------------

namespace IntDecl

/-
  The parts of a compilation, some with the size of what they
  work on: a source in bytes or a sequence in tokens.
-/
inductive Scope where
| compile (bytes : Nat)
| lex
| tokenize (bytes : Nat)
| parse
| semanticCheck
| check
| constantFold
| fold (tokens : Nat)
deriving DecidableEq, Repr

namespace Scope

/- A name with a size behind it. -/
def sized (name : String) (size : Nat) : String :=
  name ++ "\x7blen=" ++ toString size ++ "\x7d"

/- How a scope is named in a log. -/
def label : Scope → String
| .compile bytes => sized "compile" bytes
| .lex => "lex"
| .tokenize bytes => sized "tokenize" bytes
| .parse => "parse"
| .semanticCheck => "semantic_check"
| .check => "check"
| .constantFold => "constant_fold"
| .fold tokens => sized "fold" tokens

end Scope

end IntDecl

------------------------------------------------------------
-- Records
------------------------------------------------------------

namespace IntDecl

/- An entry and the scopes around it, outermost first. -/
structure Record where
  scopes : List Scope
  entry : Entry
deriving DecidableEq, Repr

namespace Record

/- Records of entries that no scope encloses. -/
def ofEntries (entries : List Entry) : List Record :=
  entries.map fun entry => ⟨[], entry⟩

/- Records with further scopes around all of them. -/
def enclose
    (scopes : List Scope)
    (records : List Record) :
    List Record :=
  records.map fun record =>
    { record with scopes := scopes ++ record.scopes }

/- The records that matter as much as a severity or more. -/
def atLeast
    (severity : Severity)
    (records : List Record) :
    List Record :=
  records.filter fun record =>
    record.entry.severity.rank ≤ severity.rank

end Record

end IntDecl
