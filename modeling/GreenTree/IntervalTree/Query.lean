import GreenTree.IntervalTree.Walk

/-!
# Queries

Three ways in which the span of a value can match a query span, and the searches for them. A value
overlaps a query when they share an offset; it touches a query also when one begins where the other
ends; it covers a query when the query lies inside it.
-/

namespace GreenTree.IntervalTree

/-- How a value has to lie to match a query. -/
inductive Match where
  | overlapping
  | touching
  | covering
  deriving DecidableEq

variable {α : Type} [Spanned α]

/-- Whether a value matches the `length` offsets from `start`. -/
def Match.test (m : Match) (value : α) (start length : UInt32) : Except Fault Bool := do
  let query ← Span.ofLength start length
  match m with
  | .overlapping => (Spanned.span value).overlaps query
  | .touching => (Spanned.span value).touches query
  | .covering => (Spanned.span value).covers query

/-- A test that keeps no state. -/
def Match.stateless (m : Match) (start length : UInt32) (value : α) (state : Unit) :
    Except Fault (Bool × Unit) := do
  let passed ← m.test value start length
  pure (passed, state)

/-- Whether some value matches. -/
def has (t : IntervalTree α) (m : Match) (start length : UInt32) : Except Fault Bool := do
  let (found, _) ← t.any start length (m.stateless start length) ()
  pure found

/-- Whether the span of some value includes `position`, or ends there. -/
def hasTouchingPosition (t : IntervalTree α) (position : UInt32) : Except Fault Bool :=
  t.has .touching position 0

/-- Appends the matching values to `buffer`, in tree order, and counts them. -/
def fill (t : IntervalTree α) (m : Match) (start length : UInt32) (buffer : Array α) :
    Except Fault (Nat × Array α) := do
  let g ← t.gather start length (m.stateless start length) false () buffer
  pure (g.added, g.buffer)

/-- The matching values in tree order. -/
def matching (t : IntervalTree α) (m : Match) (start length : UInt32) :
    Except Fault (List α) := do
  let (_, buffer) ← t.fill m start length #[]
  pure buffer.toList

/-- The first matching value in tree order. -/
def first? (t : IntervalTree α) (m : Match) (start length : UInt32) :
    Except Fault (Option α) := do
  let g ← t.gather start length (m.stateless start length) true () #[]
  pure g.buffer.back?

end GreenTree.IntervalTree
