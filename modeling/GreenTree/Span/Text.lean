import GreenTree.Span.Basic

/-!
# Texts of a span

The interval notation and the record notation of a span.
-/

namespace GreenTree.Span

/-- Interval notation: the start, and the end that is not included. -/
def interval (s : Span) : Except Fault String := do
  let stop ← s.stop
  pure s!"[{s.start}..{stop})"

/-- Record notation, which never needs the end. -/
def record (s : Span) : String :=
  s!"TextSpan \x7b start: {s.start}, length: {s.length} \x7d"

example : (Span.mk 3 4).interval = .ok "[3..7)" := by cbv

example : (Span.mk 1 2).record = "TextSpan { start: 1, length: 2 }" := by decide +kernel

end GreenTree.Span
