import GreenTree.Node.Basic

/-!
# Arenas

An arena stores nodes for good, spread over shards by their content. An id names the shard and the
index in it, so it keeps its meaning however the arena grows.
-/

namespace GreenTree

namespace NodeId

/-- The id of an index in a shard. -/
def pack (index : Nat) (shard : Fin Limits.shardCount) : NodeId :=
  ⟨UInt32.ofNat index <<< Limits.shardBits ||| (UInt32.ofNat shard.val &&& Limits.shardMask)⟩

/-- The shard that an id names. -/
def shard (id : NodeId) : Fin Limits.shardCount :=
  ⟨(id.val &&& Limits.shardMask).toNat, by
    rw [UInt32.toNat_and]
    exact Nat.lt_succ_of_le Nat.and_le_right⟩

/-- The index that an id names in its shard. -/
def index (id : NodeId) : Nat := (id.val >>> Limits.shardBits).toNat

end NodeId

structure Arena where
  shards : Vector (Array Node) Limits.shardCount

namespace Arena

def empty : Arena := ⟨Vector.replicate _ #[]⟩

/-- The node that an id names, if the arena has handed it out. -/
def get? (a : Arena) (id : NodeId) : Option Node :=
  if id = .nowhere then none else (a.shards.get id.shard)[id.index]?

def contains (a : Arena) (id : NodeId) : Bool := (a.get? id).isSome

/-- Number of nodes. -/
def size (a : Arena) : Nat := a.shards.toList.foldl (fun n row => n + row.size) 0

def isEmpty (a : Arena) : Bool := a.size == 0

/-- Stores a node in a given shard, unless the shard has no index left. -/
def storeIn (a : Arena) (shard : Fin Limits.shardCount) (n : Node) :
    Except Fault (NodeId × Arena) :=
  let row := a.shards.get shard
  if row.size ≤ Limits.maxShardIndex then
    .ok (.pack row.size shard, ⟨a.shards.set shard.val (row.push n) shard.isLt⟩)
  else
    .error (.shardFull shard.val)

/-- The shard that the content of a node decides on. -/
def shardOf (n : Node) : Fin Limits.shardCount :=
  ⟨n.contentHash.toNat % Limits.shardCount, Nat.mod_lt _ (by decide)⟩

/-- Stores a node and returns its id. -/
def store (a : Arena) (n : Node) : Except Fault (NodeId × Arena) := a.storeIn (shardOf n) n

/-- The nodes, shard by shard. -/
def nodes (a : Arena) : List Node := a.shards.toList.flatMap Array.toList

/-- The most slots that a node of the arena has. -/
def maxSlots (a : Arena) : Nat := a.nodes.foldl (fun most n => max most n.slots.length) 0

/-- Bounds the steps of a walk from parents to children. A walk that takes more steps goes round in
a circle: a path without a repeated node has at most `size` nodes, so paths from one node are fewer
than the power below, and a walk that also counts offsets can pass a node once for every offset. -/
def walkBound (a : Arena) : Nat :=
  UInt32.size * (a.size + 1) * Nat.pow (a.maxSlots + 1) (a.size + 2)

end Arena
end GreenTree
