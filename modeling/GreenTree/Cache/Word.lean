import GreenTree.Node.Basic

/-!
# Slot words

A slot of a cache is one 64-bit word: a hash in the high half and an id in the low half. Hashes have
31 bits, so the word of all ones is free to mark an empty slot.
-/

namespace GreenTree.Cache.Word

def empty : UInt64 := 0xFFFFFFFFFFFFFFFF

def pack (hash : UInt32) (id : NodeId) : UInt64 := hash.toUInt64 <<< 32 ||| id.val.toUInt64

/-- The entry that a word holds, unless it marks an empty slot. -/
def unpack? (word : UInt64) : Option (UInt32 × NodeId) :=
  if word = empty then none else some ((word >>> 32).toUInt32, ⟨word.toUInt32⟩)

end GreenTree.Cache.Word
