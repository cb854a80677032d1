import GreenTree.IntervalTree.Basic

/-!
# In-order traversal

A traversal keeps the nodes whose value and right subtree are still to come, the next one first.
-/

namespace GreenTree.IntervalTree

variable {α : Type}

/-- The pending nodes of a traversal: each value with its right subtree, the next one first. -/
structure Traversal (α : Type) where
  pending : List (α × Subtree α)

namespace Traversal

/-- A subtree put before the pending nodes: its root and all left descendants of the root. -/
def pushSpine : Subtree α → List (α × Subtree α) → List (α × Subtree α)
  | .empty, pending => pending
  | .node l v r _ _, pending => pushSpine l ((v, r) :: pending)

def start (t : Subtree α) : Traversal α := ⟨pushSpine t []⟩

/-- The next value and the traversal after it. -/
def next? (t : Traversal α) : Option (α × Traversal α) :=
  match t.pending with
  | [] => none
  | (v, r) :: rest => some (v, ⟨pushSpine r rest⟩)

/-- Number of values still to come. -/
def remaining : List (α × Subtree α) → Nat
  | [] => 0
  | (_, r) :: rest => 1 + r.count + remaining rest

theorem remaining_pushSpine (t : Subtree α) (pending : List (α × Subtree α)) :
    remaining (pushSpine t pending) = t.count + remaining pending := by
  induction t generalizing pending with
  | empty => simp [pushSpine, Subtree.count]
  | node l v r _ _ ihl _ => simp [pushSpine, ihl, remaining, Subtree.count]; omega

theorem remaining_next? {t t' : Traversal α} {v : α} (h : t.next? = some (v, t')) :
    remaining t'.pending < remaining t.pending := by
  obtain ⟨pending⟩ := t
  cases pending with
  | nil => simp [next?] at h
  | cons p rest =>
    obtain ⟨w, r⟩ := p
    simp only [next?, Option.some.injEq, Prod.mk.injEq] at h
    obtain ⟨-, rfl⟩ := h
    simp only [remaining_pushSpine, remaining]
    omega

/-- All values still to come. -/
def toList (t : Traversal α) : List α :=
  match _h : t.next? with
  | none => []
  | some (v, t') => v :: t'.toList
termination_by remaining t.pending
decreasing_by exact remaining_next? _h

theorem toList_nil : toList (⟨[]⟩ : Traversal α) = [] := by
  rw [toList]
  rfl

theorem toList_cons (v : α) (r : Subtree α) (rest : List (α × Subtree α)) :
    toList ⟨(v, r) :: rest⟩ = v :: toList ⟨pushSpine r rest⟩ := by
  rw [toList]
  rfl

/-- The first `n` values still to come, or all of them if there are fewer. -/
def take : Nat → Traversal α → List α
  | 0, _ => []
  | n + 1, t =>
    match t.next? with
    | none => []
    | some (v, t') => v :: t'.take n

end Traversal

def traversal (t : IntervalTree α) : Traversal α := .start t.root

/-- The values by ascending start, equal starts in the order of insertion. -/
def toList (t : IntervalTree α) : List α := t.traversal.toList

/-- The first `n` values of the tree. -/
def take (t : IntervalTree α) (n : Nat) : List α := t.traversal.take n

/-- The values in brackets, each written by `render`. -/
def text (render : α → String) (t : IntervalTree α) : String :=
  "[" ++ ", ".intercalate (t.toList.map render) ++ "]"

end GreenTree.IntervalTree
