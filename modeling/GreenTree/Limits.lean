/-!
# Limits

The sizes shared by the arena, the node cache and the interval tree.
-/

namespace GreenTree.Limits

/-- The default node cache has two to this power many slots. -/
def defaultSizeBits : UInt32 := 16

def minSizeBits : UInt32 := 4

/-- Key hashes have 31 bits, so a larger cache would have slots that no hash reaches. -/
def maxSizeBits : UInt32 := 30

/-- A node with more slots is never cached. -/
def maxCachedSlots : Nat := 3

def shardBits : UInt32 := 6

/-- Number of shards of an arena. -/
abbrev shardCount : Nat := 64

def shardMask : UInt32 := 63

/-- The last index a shard hands out; one more would reach the id that never names a node. -/
def maxShardIndex : Nat := (UInt32.size - 1) / shardCount - 1

/-- Largest width of a node, in bytes. -/
def maxWidth : UInt32 := 4294967295

/-- A walk over an interval tree never keeps more frames than this. -/
def walkFrames : Nat := 96

example : shardCount = 1 <<< shardBits.toNat := rfl

example : shardMask.toNat = shardCount - 1 := rfl

end GreenTree.Limits
