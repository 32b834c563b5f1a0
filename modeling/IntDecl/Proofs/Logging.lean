import IntDecl.Compilation

/-
  This file takes the entries of one scope out of a log.

  A compilation logs its reading and its recognition within
  scopes of their own. At the least severity, the entries
  there are exactly the events of the two, in order and
  without any other entry among them.

  Key definitions include:
    * `Record.within`

  Key theorems include:
    * `Record.within_enclose_of_mem`
    * `Record.within_enclose_of_not_mem`
    * `within_lex_compileLog`
    * `within_parse_compileLog`
-/

------------------------------------------------------------
-- Entries Within A Scope
------------------------------------------------------------

namespace IntDecl

namespace Record

/- The entries that a scope encloses, in order. -/
def within
    (scope : Scope)
    (records : List Record) :
    List Entry :=
  (records.filter fun record =>
    scope ∈ record.scopes).map Record.entry

variable {scope : Scope}

/- The least severity keeps every record. -/
theorem atLeast_trace
    (records : List Record) :
    atLeast .trace records = records := by
  rw [atLeast, List.filter_eq_self]
  intro record _
  cases record.entry.severity <;> rfl

/- A scope encloses what it does in each part of a log. -/
theorem within_append
    (first second : List Record) :
    within scope (first ++ second) =
      within scope first ++ within scope second := by
  rw [within, List.filter_append, List.map_append]
  rfl

/- A scope encloses all entries that are put within it. -/
theorem within_enclose_of_mem
    {scopes : List Scope}
    (hScope : scope ∈ scopes)
    (records : List Record) :
    within scope (enclose scopes records) =
      records.map Record.entry := by
  have hAll :
      ∀ record ∈ enclose scopes records,
        decide (scope ∈ record.scopes) = true := by
    intro record hMem
    rcases List.mem_map.mp hMem with ⟨inner, _, hRecord⟩
    rw [← hRecord]
    exact decide_eq_true (List.mem_append_left _ hScope)
  rw [within, List.filter_eq_self.mpr hAll, enclose,
    List.map_map]
  rfl

/- Other scopes do not change what a scope encloses. -/
theorem within_enclose_of_not_mem
    {scopes : List Scope}
    (hScope : scope ∉ scopes)
    (records : List Record) :
    within scope (enclose scopes records) =
      within scope records := by
  have hSame :
      (fun record : Record =>
          decide (scope ∈ scopes ++ record.scopes)) =
        fun record => decide (scope ∈ record.scopes) := by
    funext record
    rw [decide_eq_decide, List.mem_append,
      or_iff_right hScope]
  rw [within, enclose, List.filter_map, List.map_map]
  exact
    congrArg (fun p => (records.filter p).map Record.entry)
      hSame

/- No scope encloses the records of some entries. -/
theorem within_ofEntries
    (entries : List Entry) :
    within scope (ofEntries entries) = [] := by
  rw [within, List.map_eq_nil_iff, List.filter_eq_nil_iff]
  intro record hMem
  rcases List.mem_map.mp hMem with ⟨entry, _, hRecord⟩
  rw [← hRecord]
  simp

/- Further scopes leave the entries as they are. -/
theorem map_entry_enclose
    (scopes : List Scope)
    (records : List Record) :
    (enclose scopes records).map Record.entry =
      records.map Record.entry :=
  List.map_map

/- The entries of the records of some entries. -/
theorem map_entry_ofEntries
    (entries : List Entry) :
    (ofEntries entries).map Record.entry = entries := by
  rw [ofEntries, List.map_map]
  exact List.map_id entries

end Record

end IntDecl

------------------------------------------------------------
-- Scopes Of A Compilation
------------------------------------------------------------

namespace IntDecl

/- What follows recognition is no part of it or of reading. -/
theorem Compilation.within_log
    {scope : Scope}
    (hScope : scope ∈ [.lex, .parse])
    (options : Options)
    (ts : TokenSequence) :
    Record.within scope (log options ts) = [] := by
  have hCheck :
      Record.within scope
          (Record.enclose [.semanticCheck] ts.checkLog) =
        [] := by
    rw [TokenSequence.checkLog,
      Record.within_enclose_of_not_mem (by grind),
      Record.within_enclose_of_not_mem (by grind),
      Record.within_ofEntries]
  have hFold :
      Record.within scope
          (Record.enclose [.constantFold] ts.foldLog) =
        [] := by
    rw [TokenSequence.foldLog,
      Record.within_enclose_of_not_mem (by grind),
      Record.within_enclose_of_not_mem (by grind),
      Record.within_ofEntries]
  rw [log, Record.within_append, Record.within_append,
    Record.within_ofEntries, List.append_nil,
    List.append_eq_nil_iff]
  constructor
  · split
    · exact hCheck
    · rfl
  · split
    · exact hFold
    · rfl

/- The parts of a log that reading and recognition fill. -/
theorem within_compileLog
    {scope : Scope}
    (hScope : scope ∈ [.lex, .parse])
    (options : Options)
    (src : String) :
    Record.within scope
        (Record.atLeast .trace (compileLog options src)) =
      Record.within scope
          (Record.enclose [.lex]
            (TokenSequence.readLog src)) ++
        Record.within scope
          (Record.enclose [.parse]
            (TokenSequence.ofSource src).parseLog) := by
  rw [Record.atLeast_trace, compileLog,
    Record.within_enclose_of_not_mem (by grind),
    Record.within_append, Record.within_append]
  split
  · exact List.append_nil _
  · rw [Compilation.within_log hScope, List.append_nil]

/- The entries of reading are its events and their number. -/
theorem within_lex_compileLog
    (options : Options)
    (src : String) :
    Record.within .lex
        (Record.atLeast .trace (compileLog options src)) =
      (TokenStream.ofString src).events.map .read ++
        [.readAll (TokenSequence.ofSource src).size] := by
  rw [within_compileLog (by simp),
    Record.within_enclose_of_mem List.mem_cons_self,
    Record.within_enclose_of_not_mem (by simp),
    TokenSequence.readLog, Record.map_entry_enclose,
    Record.map_entry_ofEntries, TokenSequence.parseLog,
    Record.within_ofEntries, List.append_nil]

/- The entries of recognition are its events. -/
theorem within_parse_compileLog
    (options : Options)
    (src : String) :
    Record.within .parse
        (Record.atLeast .trace (compileLog options src)) =
      (TokenSequence.ofSource src).parse.trace.map
        .parse := by
  rw [within_compileLog (by simp),
    Record.within_enclose_of_not_mem (by simp),
    Record.within_enclose_of_mem List.mem_cons_self,
    TokenSequence.readLog,
    Record.within_enclose_of_not_mem (by simp),
    Record.within_ofEntries, TokenSequence.parseLog,
    Record.map_entry_ofEntries, List.nil_append]

end IntDecl
