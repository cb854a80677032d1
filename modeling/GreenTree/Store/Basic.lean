import GreenTree.Cache.Basic
import GreenTree.Store.Tokens

/-!
# Stores

A store is what a parser builds a tree with. It owns an arena, shares equal tokens, and reuses a
node that its cache still holds instead of building an equal one.
-/

namespace GreenTree

structure Store where
  instanceNumber : Nat
  arena : Arena
  cache : Cache
  tokens : TokenTable

namespace Store

/-- A store without nodes that reuses them through `cache`. -/
def ofCache (instanceNumber : Nat) (cache : Cache) : Store :=
  ⟨instanceNumber, .empty, cache, .empty⟩

def get? (s : Store) (id : NodeId) : Option Node := s.arena.get? id

/-- Stores a node as it is. -/
def store (s : Store) (n : Node) : Except Fault (NodeId × Store) := do
  let (id, arena) ← s.arena.store n
  pure (id, { s with arena })

/-- A token that is present and carries no decoration, whatever the flags say. Equal tokens have
one id. -/
def token (s : Store) (kind : Kind) (flags : Flags) (text : String) :
    Except Fault (NodeId × Store) :=
  let key : TokenKey := ⟨text, kind, flags.ofToken⟩
  match s.tokens.find? key with
  | some id => pure (id, s)
  | none => do
    let node ← Node.token kind flags.ofToken text
    let (id, s') ← s.store node
    pure (id, { s' with tokens := s'.tokens.insert key id })

/-- A token without text, standing in for one that was expected. Each has an id of its own. -/
def missingToken (s : Store) (kind : Kind) : Except Fault (NodeId × Store) := do
  let node ← Node.token kind .none ""
  s.store node

/-- A width and flags with what a child adds to them. A child that the arena does not know adds
nothing. -/
def absorb (arena : Arena) (sum : UInt32 × Flags) (child : NodeId) : UInt32 × Flags :=
  match arena.get? child with
  | none => sum
  | some node => (Offset.cappedSum sum.1 node.width, sum.2 ||| node.flags.inherited)

/-- The node for a key: as wide as its children are together, and with the flags they pass up. -/
def assemble (arena : Arena) (key : NodeKey) : Node :=
  let sum := key.children.foldl (absorb arena) (0, key.flags)
  .interior { key with flags := sum.2 } sum.1

/-- Builds a node, even if there is an equal one. -/
def build (s : Store) (key : NodeKey) : Except Fault (NodeId × Store) :=
  s.store (assemble s.arena key)

/-- A node of this kind over these slots. An equal node that the cache holds is reused; a new one
is offered to the cache. Decoration among the flags is ignored. -/
def node (s : Store) (kind : Kind) (flags : Flags) (slots : List (Option NodeId)) :
    Except Fault (NodeId × Store) :=
  let key : NodeKey := ⟨kind, flags.undecorated, slots⟩
  let (answer, cache) := s.cache.probe s.arena key
  let asked : Store := { s with cache }
  match answer with
  | .hit id => pure (id, asked)
  | .ineligible => asked.build key
  | .miss hash => do
    let (id, s') ← asked.build key
    let (_, offered) := s'.cache.offer s'.arena id hash
    pure (id, { s' with cache := offered })

/-- A list node over these children. -/
def list (s : Store) (children : List NodeId) : Except Fault (NodeId × Store) :=
  s.node .list .present (children.map some)

/-- A changed copy of a node, or the id itself if the arena does not know it. -/
def copyWith (s : Store) (id : NodeId) (change : Node → Node) : Except Fault (NodeId × Store) :=
  match s.get? id with
  | none => pure (id, s)
  | some node => s.store (change node)

/-- A copy of a node that carries these diagnostics. No cache ever holds it or a node over it. -/
def withDiagnostics (s : Store) (id : NodeId) (diagnostics : List Diagnostic) :
    Except Fault (NodeId × Store) :=
  s.copyWith id (·.diagnose diagnostics)

/-- A copy of a node that carries these annotations. No cache ever holds it or a node over it. -/
def withAnnotations (s : Store) (id : NodeId) (annotations : List Marker) :
    Except Fault (NodeId × Store) :=
  s.copyWith id (·.annotate annotations)

end Store
end GreenTree
