/-
  This file defines spans, the byte ranges that tokens take
  in a source.

  Key definitions include:
    * `Span`
    * `Span.stop`
    * `Span.atStop`
    * `Span.join`
    * `Span.Covers`

  Key theorems include:
    * `Span.offset_join`
    * `Span.stop_join`
-/

------------------------------------------------------------
-- Spans
------------------------------------------------------------

namespace IntDecl

/- A range of bytes, given by its first byte and its size. -/
structure Span where
  offset : Nat
  length : Nat
deriving DecidableEq, Repr

namespace Span

/- The position right after the last byte. -/
def stop (s : Span) : Nat :=
  s.offset + s.length

/- A span of no bytes. -/
def isEmpty (s : Span) : Bool :=
  s.length == 0

/- The empty span right after another one. -/
def atStop (s : Span) : Span where
  offset := s.stop
  length := 0

/-
  The span from the earlier of two offsets to the later of
  two ends.
-/
def join (s t : Span) : Span where
  offset := min s.offset t.offset
  length := max s.stop t.stop - min s.offset t.offset

/- A joined span starts where the earlier one starts. -/
@[simp] theorem offset_join
    (s t : Span) :
    (s.join t).offset = min s.offset t.offset := rfl

/- A joined span stops where the later one stops. -/
@[simp] theorem stop_join
    (s t : Span) :
    (s.join t).stop = max s.stop t.stop := by
  simp only [join, stop]
  omega

/- A span in full, with the names of its parts. -/
def describe (s : Span) : String :=
  "Span \x7b offset: " ++ toString s.offset ++
    ", len: " ++ toString s.length ++ " \x7d"

end Span

end IntDecl

------------------------------------------------------------
-- Coverage
------------------------------------------------------------

namespace IntDecl

namespace Span

/- Every byte of `s` is one of `t`, ends included. -/
def Covers (t s : Span) : Prop :=
  t.offset ≤ s.offset ∧ s.stop ≤ t.stop

instance (t s : Span) : Decidable (t.Covers s) := by
  unfold Covers
  infer_instance

end Span

end IntDecl
