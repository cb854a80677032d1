import GreenTree.Brace.Collect
import GreenTree.IntervalTree.Query
import GreenTree.IntervalTree.Traversal

/-!
# Brace index

The brace pairs of one document in an interval tree, each by the span that it encloses.
-/

namespace GreenTree

structure BraceIndex where
  tree : IntervalTree (Span × BracePair)

namespace BraceIndex

def empty : BraceIndex := ⟨.empty⟩

/-- The index with one more pair, refused when the pair encloses no span. -/
def insert (i : BraceIndex) (p : BracePair) : Except Fault BraceIndex := do
  let span ← p.span
  let tree ← i.tree.insert (span, p)
  pure ⟨tree⟩

/-- Insertion of several pairs, the first one first. -/
def insertAll (i : BraceIndex) : List BracePair → Except Fault BraceIndex
  | [] => pure i
  | p :: rest => do
    let i' ← i.insert p
    i'.insertAll rest

def ofList (pairs : List BracePair) : Except Fault BraceIndex := empty.insertAll pairs

/-- The index of the pairs under `root`. -/
def ofTree (kinds : BraceKinds) (arena : Arena) (root : NodeId) : Except Fault BraceIndex := do
  let pairs ← kinds.collect arena root
  ofList pairs

def size (i : BraceIndex) : Nat := i.tree.size

def isEmpty (i : BraceIndex) : Bool := i.tree.isEmpty

/-- The pairs by the start of the span they enclose. -/
def toList (i : BraceIndex) : List BracePair := i.tree.toList.map (·.2)

/-- The pairs whose enclosed span overlaps or touches `span`. -/
def touching (i : BraceIndex) (span : Span) : Except Fault (List BracePair) := do
  let found ← i.tree.matching .touching span.start span.length
  pure (found.map (·.2))

/-- Whether `p` encloses less than `q`, or as much but opens later. -/
def isInside (p q : Span × BracePair) : Bool :=
  p.1.length < q.1.length || (p.1.length == q.1.length && q.2.opening.start < p.2.opening.start)

/-- An innermost entry, the first one where there are several. -/
def innermostOf : List (Span × BracePair) → Option (Span × BracePair)
  | [] => none
  | p :: rest => some (rest.foldl (fun best q => if isInside q best then q else best) p)

/-- The smallest pair whose enclosed span includes `position`, or ends there. -/
def innermost? (i : BraceIndex) (position : UInt32) : Except Fault (Option BracePair) := do
  let found ← i.tree.matching .covering position 0
  pure ((innermostOf found).map (·.2))

end BraceIndex
end GreenTree
