import GreenTree.Arena
import GreenTree.Cache.Config
import GreenTree.Cache.Counters
import GreenTree.Cache.Word

/-!
# Node caches

A cache is a table of fixed size in which every key hash has one slot. A probe asks for a node equal
to a key. After a miss the node is built and offered, and it takes the slot over from whatever held
it. An entry is compared with the key before it is returned, so a stale one costs a miss and nothing
else.

Only small nodes are held: present, without decoration, of few slots. A node is accepted only while
its children are held too, tokens and other nodes without slots excepted, since a parent of a node
that cannot be found again cannot be found again either.
-/

namespace GreenTree

namespace NodeKey

/-- The key with the flags its children pass up, if every child is known and cacheable. -/
def inherit? (arena : Arena) (key : NodeKey) : List NodeId → Option NodeKey
  | [] => some key
  | child :: rest =>
    match arena.get? child with
    | none => none
    | some node =>
      if node.isCacheable then
        inherit? arena { key with flags := key.flags ||| node.flags.inherited } rest
      else
        none

/-- The key that a node built for `key` would have, if a cache could hold that node. -/
def effective? (arena : Arena) (key : NodeKey) : Option NodeKey :=
  if Limits.maxCachedSlots < key.slots.length ∨ key.flags.isMissing ∨ key.flags.isDecorated then
    none
  else
    key.inherit? arena key.children

end NodeKey

/-- A table of words and the counters of what was done with it. -/
structure Cache where
  sizeBits : Nat
  slots : Vector UInt64 (Cache.slotCount sizeBits)
  counters : Cache.Counters

namespace Cache

/-- The answer to a probe. A miss carries the hash under which to offer the node once it is built;
a key that no cache can hold is ineligible. -/
inductive Probe where
  | hit (id : NodeId)
  | miss (hash : UInt32)
  | ineligible
  deriving DecidableEq

def ofBits (sizeBits : Nat) : Cache := ⟨sizeBits, Vector.replicate _ Word.empty, {}⟩

/-- A cache of the configured size. -/
def ofConfig (config : Config) : Except ConfigError Cache := do
  config.validate
  pure (ofBits config.sizeBits.toNat)

/-- A cache of the default size. -/
def default : Cache := ofBits Limits.defaultSizeBits.toNat

def capacity (c : Cache) : Nat := slotCount c.sizeBits

/-- The slot of a hash: its low bits. -/
def slot (c : Cache) (hash : UInt32) : Fin (slotCount c.sizeBits) :=
  ⟨hash.toNat &&& (slotCount c.sizeBits - 1),
    Nat.lt_of_le_of_lt Nat.and_le_right (Nat.sub_one_lt (Nat.ne_of_gt (slotCount_pos _)))⟩

/-- The word in the slot of a hash. -/
def word (c : Cache) (hash : UInt32) : UInt64 := c.slots.get (c.slot hash)

/-- The entry in the slot of a hash, which may belong to another hash. -/
def entry? (c : Cache) (hash : UInt32) : Option (UInt32 × NodeId) := Word.unpack? (c.word hash)

/-- Whether `id` is held under `hash`. -/
def holds (c : Cache) (id : NodeId) (hash : UInt32) : Bool := c.entry? hash == some (hash, id)

/-- Whether a node holds the slot of its hash. -/
def isResident (c : Cache) (arena : Arena) (id : NodeId) : Bool :=
  match arena.get? id with
  | none => false
  | some node => c.holds id node.keyHash

/-- The cache after an event is counted. -/
def count (c : Cache) (event : Counters → Counters) : Cache :=
  { c with counters := event c.counters }

/-- The id held under `hash`, if it names a node with that key. -/
def lookup? (c : Cache) (arena : Arena) (key : NodeKey) (hash : UInt32) : Option NodeId :=
  match c.entry? hash with
  | none => none
  | some (hash', id) =>
    if hash' = hash then
      match arena.get? id with
      | none => none
      | some node => if node.key = key then some id else none
    else
      none

/-- Looks for a node equal to the one that would be built for `key`. -/
def probe (c : Cache) (arena : Arena) (key : NodeKey) : Probe × Cache :=
  let asked := c.count fun n => { n with lookups := n.lookups + 1 }
  match key.effective? arena with
  | none => (.ineligible, asked.count fun n => { n with ineligible := n.ineligible + 1 })
  | some effective =>
    match c.lookup? arena effective effective.hash with
    | some id => (.hit id, asked.count fun n => { n with hits := n.hits + 1 })
    | none => (.miss effective.hash, asked.count fun n => { n with misses := n.misses + 1 })

/-- Whether a child does not stand in the way of its parent: it has no slots or is held. -/
def admitsChild (c : Cache) (arena : Arena) (child : NodeId) : Bool :=
  match arena.get? child with
  | none => false
  | some node => node.slots.isEmpty || c.holds child node.keyHash

/-- Whether a node may be stored under `hash`. -/
def admits (c : Cache) (arena : Arena) (id : NodeId) (hash : UInt32) : Bool :=
  match arena.get? id with
  | none => false
  | some node =>
    node.keyHash == hash && node.isCacheable && node.children.all (c.admitsChild arena)

/-- Offers a node to be held under `hash`, and tells whether it was stored. Storing overwrites the
slot; an entry that was there already is not an eviction. -/
def offer (c : Cache) (arena : Arena) (id : NodeId) (hash : UInt32) : Bool × Cache :=
  if c.admits arena id hash then
    let entry := Word.pack hash id
    let previous := c.word hash
    let evicted := previous ≠ Word.empty ∧ previous ≠ entry
    let stored : Cache :=
      { c with slots := c.slots.set (c.slot hash).val entry (c.slot hash).isLt }
    (true, stored.count fun n =>
      { n with adds := n.adds + 1,
               evictions := if evicted then n.evictions + 1 else n.evictions })
  else
    (false, c.count fun n => { n with rejectedAdds := n.rejectedAdds + 1 })

/-- Empties every slot; the counters go on. -/
def clear (c : Cache) : Cache := { c with slots := Vector.replicate _ Word.empty }

end Cache
end GreenTree
