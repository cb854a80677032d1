import GreenTree.Span.Basic

/-!
# Interval trees

A height-balanced search tree of values that lie somewhere, ordered by the start of their spans;
values with equal starts stay in the order they were inserted. Every node also stores the largest
end in its subtree, by which a search skips what cannot reach it. Trees are values: an insertion
returns a new tree and leaves the old one as it was.
-/

namespace GreenTree
namespace IntervalTree

/-- A subtree: a value between two subtrees, with the height and the largest end of the whole. -/
inductive Subtree (α : Type) where
  | empty
  | node (left : Subtree α) (value : α) (right : Subtree α) (height : Nat) (maxEnd : UInt32)

namespace Subtree

variable {α : Type}

/-- The stored height, which is 1 for a node without children. -/
def height : Subtree α → Nat
  | empty => 0
  | node _ _ _ h _ => h

/-- The values in order, read off the shape. -/
def toList : Subtree α → List α
  | empty => []
  | node l v r _ _ => l.toList ++ v :: r.toList

/-- Number of nodes. -/
def count : Subtree α → Nat
  | empty => 0
  | node l _ r _ _ => l.count + 1 + r.count

theorem length_toList (t : Subtree α) : t.toList.length = t.count := by
  induction t with
  | empty => rfl
  | node l v r _ _ ihl ihr => simp [toList, count, ihl, ihr]; omega

/-- The larger of an end and the largest end stored in a subtree. -/
def widen (stop : UInt32) : Subtree α → UInt32
  | empty => stop
  | node _ _ _ _ m => max stop m

/-- Left height minus right height. -/
def balanceFactor : Subtree α → Int
  | empty => 0
  | node l _ r _ _ => (l.height : Int) - (r.height : Int)

variable [Spanned α]

/-- A node over two subtrees, with what it stores computed from them. -/
def join (l : Subtree α) (v : α) (r : Subtree α) : Except Fault (Subtree α) := do
  let stop ← (Spanned.span v).stop
  pure (node l v r (1 + max l.height r.height) (r.widen (l.widen stop)))

/-- The right child becomes the root, and its left subtree changes sides. -/
def rotateLeft : Subtree α → Except Fault (Subtree α)
  | node a v (node b w c _ _) _ _ => do
    let lower ← join a v b
    join lower w c
  | t => pure t

/-- The left child becomes the root, and its right subtree changes sides. -/
def rotateRight : Subtree α → Except Fault (Subtree α)
  | node (node a v b _ _) w c _ _ => do
    let lower ← join b w c
    join a v lower
  | t => pure t

/-- One rotation, or two where the heavy child leans the other way, at a node whose children's
heights differ by two. -/
def rebalance : Subtree α → Except Fault (Subtree α)
  | empty => pure empty
  | node l v r h m =>
    if (node l v r h m).balanceFactor = -2 then
      if r.balanceFactor = 1 then do
        let turned ← r.rotateRight
        rotateLeft (node l v turned h m)
      else
        rotateLeft (node l v r h m)
    else if (node l v r h m).balanceFactor = 2 then
      if l.balanceFactor = -1 then do
        let turned ← l.rotateLeft
        rotateRight (node turned v r h m)
      else
        rotateRight (node l v r h m)
    else
      pure (node l v r h m)

/-- Insertion below the values that start no later, with every node on the way rebuilt. -/
def insert (value : α) : Subtree α → Except Fault (Subtree α)
  | empty => join empty value empty
  | node l v r _ _ =>
    if (Spanned.span value).start < (Spanned.span v).start then do
      let l' ← insert value l
      let joined ← join l' v r
      joined.rebalance
    else do
      let r' ← insert value r
      let joined ← join l v r'
      joined.rebalance

end Subtree
end IntervalTree

/-- A tree together with the number of values inserted into it. -/
structure IntervalTree (α : Type) where
  root : IntervalTree.Subtree α
  size : Nat

namespace IntervalTree

variable {α : Type}

def empty : IntervalTree α := ⟨.empty, 0⟩

def height (t : IntervalTree α) : Nat := t.root.height

def isEmpty (t : IntervalTree α) : Bool :=
  match t.root with
  | .empty => true
  | .node .. => false

variable [Spanned α]

/-- The tree with one more value, refused when the end of its span is no offset. -/
def insert (t : IntervalTree α) (value : α) : Except Fault (IntervalTree α) := do
  let root ← t.root.insert value
  pure ⟨root, t.size + 1⟩

/-- Insertion of several values, the first one first. -/
def insertAll (t : IntervalTree α) : List α → Except Fault (IntervalTree α)
  | [] => pure t
  | v :: rest => do
    let t' ← t.insert v
    t'.insertAll rest

def ofList (values : List α) : Except Fault (IntervalTree α) := empty.insertAll values

end IntervalTree
end GreenTree
