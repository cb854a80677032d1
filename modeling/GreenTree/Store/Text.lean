import GreenTree.Store.Basic

/-!
# Text of a tree

The text of a node is the text of the tokens below it from left to right, gathered by a walk that
keeps a stack of the nodes still to come.
-/

namespace GreenTree

/-- Appends the texts below the pending nodes, of which at most `fuel` are taken from the stack. -/
def Arena.gatherText (arena : Arena) : Nat → List NodeId → String → Except Fault String
  | _, [], out => .ok out
  | 0, _ :: _, _ => .error .endlessWalk
  | fuel + 1, id :: pending, out =>
    match arena.get? id with
    | none => arena.gatherText fuel pending out
    | some node =>
      arena.gatherText fuel (node.children ++ pending)
        (match node.text with
          | none => out
          | some text => out ++ text)

/-- The text of a node, which is empty for an id that the arena does not know. -/
def Arena.text (arena : Arena) (id : NodeId) : Except Fault String :=
  arena.gatherText arena.walkBound [id] ""

def Store.text (s : Store) (id : NodeId) : Except Fault String := s.arena.text id

end GreenTree
