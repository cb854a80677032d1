import GreenTree.Brace.Kinds
import GreenTree.Brace.Pair
import GreenTree.Store.Basic

/-!
# Collecting brace pairs

An opening token pairs with the first later sibling that is a token of its closing kind. The pairs
of a tree are found by a walk that keeps the nodes still to come, each with its offset.
-/

namespace GreenTree
namespace BraceKinds

/-- A child of a node, and where it lies. -/
structure Placed where
  id : NodeId
  node : Node
  span : Span

/-- The known children side by side from `offset` on. -/
def place (arena : Arena) : UInt32 → List NodeId → Except Fault (List Placed)
  | _, [] => .ok []
  | offset, id :: rest =>
    match arena.get? id with
    | none => place arena offset rest
    | some node => do
      let span ← Span.ofLength offset node.width
      let later ← place arena (Offset.cappedSum offset node.width) rest
      pure (⟨id, node, span⟩ :: later)

/-- Whether a node is a token of this kind that is really there. -/
def isPresentToken (n : Node) (kind : Kind) : Bool := n.isToken && n.kind == kind && !n.isMissing

/-- The span of the token that closes `n`, if `n` is an opening token. -/
def closingAmong (b : BraceKinds) (n : Node) (later : List Placed) : Option Span :=
  if n.isToken && !n.isMissing then
    match b.closing? n.kind with
    | none => none
    | some kind => (later.find? fun p => isPresentToken p.node kind).map (·.span)
  else
    none

/-- The pairs whose opening token is among some siblings. -/
def pairsAmong (b : BraceKinds) : List Placed → List BracePair
  | [] => []
  | p :: later =>
    match b.closingAmong p.node later with
    | none => b.pairsAmong later
    | some closing => ⟨p.span, closing⟩ :: b.pairsAmong later

/-- Adds the pairs below the pending nodes, of which at most `fuel` are taken from the stack. -/
def collectFrom (b : BraceKinds) (arena : Arena) :
    Nat → List (NodeId × UInt32) → Array BracePair → Except Fault (Array BracePair)
  | _, [], found => .ok found
  | 0, _ :: _, _ => .error .endlessWalk
  | fuel + 1, (id, offset) :: pending, found =>
    match arena.get? id with
    | none => b.collectFrom arena fuel pending found
    | some node =>
      if node.isToken then
        b.collectFrom arena fuel pending found
      else do
        let children ← place arena offset node.children
        b.collectFrom arena fuel (children.map (fun p => (p.id, p.span.start)) ++ pending)
          (found ++ b.pairsAmong children)

/-- The pairs of the tree under `root`, which starts at offset 0, by the start of the opening
token. -/
def collect (b : BraceKinds) (arena : Arena) (root : NodeId) : Except Fault (List BracePair) := do
  let found ← b.collectFrom arena arena.walkBound [(root, 0)] #[]
  pure (found.toList.mergeSort fun p q => p.opening.start ≤ q.opening.start)

end BraceKinds
end GreenTree
