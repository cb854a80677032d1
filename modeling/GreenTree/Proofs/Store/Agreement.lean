import GreenTree.Proofs.Cache.Answers
import GreenTree.Proofs.Store.Soundness

/-!
# Agreement of probe and build

A probe asks for the key of a node that may not exist yet, and building that node computes the key
once more. If the two did not agree, the cache would refuse whatever is built after a miss. They do,
so the only reason to refuse such a node is a child that the cache has lost.
-/

namespace GreenTree

namespace Arena

variable {a b : Arena} {n : Node} {key : NodeKey}

/-- The shard of the node has an index left. -/
def HasRoom (a : Arena) (n : Node) : Prop :=
  (a.shards.get (shardOf n)).size ≤ Limits.maxShardIndex

theorem HasRoom.exists_store (h : a.HasRoom n) : ∃ id b, a.store n = .ok (id, b) :=
  ⟨_, _, storeIn_eq_ok_iff.mpr ⟨h, rfl, rfl⟩⟩

theorem store_of_not_hasRoom (h : ¬ a.HasRoom n) :
    a.store n = .error (.shardFull (shardOf n).val) := by
  rw [store, storeIn]
  exact if_neg h

theorem effectiveKey_of_extends (h : a.Extends b)
    (hknown : ∀ child ∈ key.children, ∃ n, a.get? child = some n) :
    b.effectiveKey key = a.effectiveKey key := by
  rw [effectiveKey, effectiveKey, known_of_extends h hknown]

end Arena

namespace NodeKey.Eligible

variable {key : NodeKey} {arena after : Arena}

theorem known (h : key.Eligible arena) :
    ∀ child ∈ key.children, ∃ n, arena.get? child = some n := by
  intro child hchild
  obtain ⟨n, hn, -⟩ := h.children child hchild
  exact ⟨n, hn⟩

theorem of_extends (h : key.Eligible arena) (hafter : arena.Extends after) :
    key.Eligible after := by
  refine ⟨h.small, h.present, h.undecorated, ?_⟩
  intro child hchild
  obtain ⟨n, hn, hcacheable⟩ := h.children child hchild
  exact ⟨n, hafter child n hn, hcacheable⟩

theorem effectiveKey_eq (h : key.Eligible arena) (hafter : arena.Extends after) :
    after.effectiveKey key = arena.effectiveKey key :=
  Arena.effectiveKey_of_extends hafter h.known

/-- What is asked for may be held once it is built: clean children pass nothing up that would keep
their parent out. -/
theorem isCacheable_assemble (h : key.Eligible arena) :
    (Store.assemble arena key).isCacheable = true := by
  have hchildren : ∀ n ∈ arena.known key.children, n.flags.isDecorated = false := by
    intro n hn
    obtain ⟨child, hchild, hget⟩ := List.mem_filterMap.mp hn
    obtain ⟨m, hm, hcacheable⟩ := h.children child hchild
    rw [hget, Option.some.injEq] at hm
    subst hm
    simp only [Node.isCacheable, Bool.and_eq_true, Bool.not_eq_true'] at hcacheable
    exact hcacheable.1.2
  have hmissing : (Store.assemble arena key).isMissing = false := by
    rw [Node.isMissing, Node.flags, Store.key_assemble]
    exact (Node.isMissing_flagsOver ..).trans h.present
  have hdecorated : (Store.assemble arena key).flags.isDecorated = false := by
    rw [Node.flags, Store.key_assemble]
    exact Node.isDecorated_flagsOver_eq_false h.undecorated hchildren
  have hslots : (Store.assemble arena key).slots.length ≤ 3 := by
    rw [Node.slots, Store.key_assemble]
    exact h.small
  simp only [Node.isCacheable, hmissing, hdecorated, Bool.not_false, Bool.true_and,
    decide_eq_true_eq]
  exact hslots

end NodeKey.Eligible

namespace Cache

variable {c c' : Cache} {arena after : Arena} {key : NodeKey} {hash : UInt32} {child : NodeId}

theorem Supports.iff_of_extends (hafter : arena.Extends after)
    (hentry : ∀ hash, c'.entry? hash = c.entry? hash)
    (hknown : ∀ hash hash' id, c.entry? hash = some (hash', id) → arena.contains id = true)
    (hchild : ∃ n, arena.get? child = some n) :
    c'.Supports after child ↔ c.Supports arena child := by
  obtain ⟨n, hn⟩ := hchild
  simp only [Supports, hn, hafter child n hn, isResident_of_extends hafter hentry hknown]

/-- A miss stays a miss while the entries stay as they are: no entry names a new node. -/
theorem probe_eq_miss_of_extends (hafter : arena.Extends after)
    (hentry : ∀ hash, c'.entry? hash = c.entry? hash)
    (hknown : ∀ hash hash' id, c.entry? hash = some (hash', id) → arena.contains id = true)
    (harena : ∀ id n, after.get? id = some n → n.keyHash = n.key.hash)
    (h : (c.probe arena key).1 = .miss hash) : (c'.probe after key).1 = .miss hash := by
  have hbefore : ∀ id n, arena.get? id = some n → n.keyHash = n.key.hash :=
    fun id n hget => harena id n (hafter id n hget)
  obtain ⟨heligible, hnone, rfl⟩ := (probe_eq_miss_iff hbefore).mp h
  refine (probe_eq_miss_iff harena).mpr ⟨heligible.of_extends hafter, ?_, ?_⟩
  · -- A new node may well match the key, but it is not resident.
    rintro id ⟨hresident, n, hget, hn⟩
    rw [isResident_of_extends hafter hentry hknown] at hresident
    obtain ⟨m, hm, -⟩ := isResident_iff.mp hresident
    rw [hafter id m hm, Option.some.injEq] at hget
    subst hget
    rw [Node.matches_iff, heligible.effectiveKey_eq hafter] at hn
    exact hnone id ⟨hresident, m, hm, Node.matches_iff.mpr hn⟩
  · rw [heligible.effectiveKey_eq hafter]

end Cache

namespace Store

variable {s t : Store} {kind : Kind} {flags : Flags} {slots : List (Option NodeId)} {hash : UInt32}
  {id : NodeId}

/-- The request for a node is answered with one that was not there. It is stopped only if there is
no room for it. -/
inductive Allocates (s : Store) (kind : Kind) (flags : Flags) (slots : List (Option NodeId)) : Prop
  | made {id : NodeId} {t : Store}
      (hroom : s.arena.HasRoom (assemble s.arena ⟨kind, flags.undecorated, slots⟩))
      (hnode : s.node kind flags slots = .ok (id, t)) (hnew : s.arena.get? id = none)
      (hget : t.arena.get? id = some (assemble s.arena ⟨kind, flags.undecorated, slots⟩))
  | full (hroom : ¬ s.arena.HasRoom (assemble s.arena ⟨kind, flags.undecorated, slots⟩))
      (hnode : s.node kind flags slots = .error
        (.shardFull (Arena.shardOf (assemble s.arena ⟨kind, flags.undecorated, slots⟩)).val))

theorem keyHash_assemble (arena : Arena) (key : NodeKey) :
    (assemble arena key).keyHash = (arena.effectiveKey key).hash := by
  rw [(Node.formed_assemble arena key).keyHash, key_assemble]

theorem node_of_hit
    (h : (s.cache.probe s.arena ⟨kind, flags.undecorated, slots⟩).1 = .hit id) :
    s.node kind flags slots = .ok (id,
      { s with cache := (s.cache.probe s.arena ⟨kind, flags.undecorated, slots⟩).2 }) := by
  simp only [node, h]
  rfl

theorem node_of_miss
    (h : (s.cache.probe s.arena ⟨kind, flags.undecorated, slots⟩).1 = .miss hash) :
    s.node kind flags slots =
      (s.arena.store (assemble s.arena ⟨kind, flags.undecorated, slots⟩)).map fun stored =>
        (stored.1, { s with
          arena := stored.2
          cache := ((s.cache.probe s.arena ⟨kind, flags.undecorated, slots⟩).2.offer stored.2
            stored.1 hash).2 }) := by
  simp only [node, h, build, store]
  cases s.arena.store (assemble s.arena ⟨kind, flags.undecorated, slots⟩) <;> rfl

theorem allocates_of_miss
    (h : (s.cache.probe s.arena ⟨kind, flags.undecorated, slots⟩).1 = .miss hash) :
    s.Allocates kind flags slots := by
  have hnode := node_of_miss h
  by_cases hroom : s.arena.HasRoom (assemble s.arena ⟨kind, flags.undecorated, slots⟩)
  · obtain ⟨id, arena, hstore⟩ := hroom.exists_store
    rw [hstore] at hnode
    exact .made hroom hnode (Arena.get?_fresh_of_storeIn hstore) (Arena.get?_stored hstore)
  · rw [Arena.store_of_not_hasRoom hroom] at hnode
    exact .full hroom hnode

theorem stored_and_offered_of_miss
    (hmiss : (s.cache.probe s.arena ⟨kind, flags.undecorated, slots⟩).1 = .miss hash)
    (h : s.node kind flags slots = .ok (id, t)) :
    s.arena.store (assemble s.arena ⟨kind, flags.undecorated, slots⟩) = .ok (id, t.arena) ∧
      t.cache = ((s.cache.probe s.arena ⟨kind, flags.undecorated, slots⟩).2.offer t.arena id
        hash).2 := by
  obtain ⟨hhit, -⟩ | ⟨arena, hstore, ⟨hineligible, -⟩ | ⟨hash', hmiss', rfl⟩⟩ := node_probed h
  · rw [hmiss] at hhit
    cases hhit
  · rw [hmiss] at hineligible
    cases hineligible
  · rw [hmiss, Cache.Probe.miss.injEq] at hmiss'
    subst hmiss'
    exact ⟨hstore, rfl⟩

theorem Sound.entry_known (hs : s.Sound) (hash hash' : UInt32) (id : NodeId)
    (h : s.cache.entry? hash = some (hash', id)) : s.arena.contains id = true := by
  obtain ⟨-, n, hget, -⟩ := hs.entry hash hash' id h
  rw [Arena.contains, hget]
  rfl

section Built

/-! A node that was asked for in vain has been built and offered. -/

variable (hs : s.Sound) (hkey : NodeKey.Eligible ⟨kind, flags.undecorated, slots⟩ s.arena)
  (hstore : s.arena.store (assemble s.arena ⟨kind, flags.undecorated, slots⟩) = .ok (id, t.arena))
  {asked : Cache}

include hs hkey hstore

/-- The node is accepted exactly if its children support it. -/
theorem admits_built_iff (hasked : ∀ hash, asked.entry? hash = s.cache.entry? hash) :
    asked.admits t.arena id (s.arena.effectiveKey ⟨kind, flags.undecorated, slots⟩).hash = true ↔
      ∀ child ∈ NodeKey.children ⟨kind, flags.undecorated, slots⟩,
        s.cache.Supports s.arena child := by
  have hextends := Arena.extends_of_store hstore
  have hchildren : (∀ child ∈ NodeKey.children ⟨kind, flags.undecorated, slots⟩,
      asked.admitsChild t.arena child = true) ↔
        ∀ child ∈ NodeKey.children ⟨kind, flags.undecorated, slots⟩,
          s.cache.Supports s.arena child := by
    refine forall₂_congr fun child hchild => ?_
    rw [Cache.admitsChild_iff]
    exact Cache.Supports.iff_of_extends hextends hasked hs.entry_known (hkey.known child hchild)
  simp only [Cache.admits_iff, Arena.get?_stored hstore, Option.some.injEq, exists_eq_left',
    keyHash_assemble, hkey.isCacheable_assemble, children_assemble, hchildren, true_and]

/-- An accepted node is the answer when the request is repeated. -/
theorem node_of_accepted
    (hadmits : asked.admits t.arena id
      (s.arena.effectiveKey ⟨kind, flags.undecorated, slots⟩).hash = true)
    (hcache : t.cache = (asked.offer t.arena id
      (s.arena.effectiveKey ⟨kind, flags.undecorated, slots⟩).hash).2) :
    t.cache.isResident t.arena id = true ∧ t.node kind flags slots = .ok (id,
      { t with cache := (t.cache.probe t.arena ⟨kind, flags.undecorated, slots⟩).2 }) := by
  have hextends := Arena.extends_of_store hstore
  have hformed := hs.formed.store (Node.formed_assemble s.arena _) hstore
  have hresident : t.cache.isResident t.arena id = true := by
    rw [hcache]
    exact (Cache.isResident_offer_iff hadmits (NodeKey.hash_lt _)).mpr (.inl rfl)
  have hmatches : (assemble s.arena ⟨kind, flags.undecorated, slots⟩).Matches t.arena
      ⟨kind, flags.undecorated, slots⟩ := by
    rw [Node.matches_iff, hkey.effectiveKey_eq hextends, key_assemble]
  have hholds : t.cache.HoldsMatch t.arena ⟨kind, flags.undecorated, slots⟩ id :=
    ⟨hresident, _, Arena.get?_stored hstore, hmatches⟩
  exact ⟨hresident, node_of_hit (Cache.probe_of_holdsMatch
    (fun id n hn => (hformed id n hn).keyHash) (hkey.of_extends hextends) hholds)⟩

omit hkey in
/-- A refused node is not found, and another one is made when the request is repeated. -/
theorem allocates_of_refused (hasked : ∀ hash, asked.entry? hash = s.cache.entry? hash)
    (hmiss : (s.cache.probe s.arena ⟨kind, flags.undecorated, slots⟩).1 = .miss hash)
    (hrefused : ¬ asked.admits t.arena id hash = true)
    (hcache : t.cache = (asked.offer t.arena id hash).2) :
    t.cache.isResident t.arena id = false ∧ t.Allocates kind flags slots := by
  have hextends := Arena.extends_of_store hstore
  have hformed := hs.formed.store (Node.formed_assemble s.arena _) hstore
  have hentry : ∀ other, t.cache.entry? other = s.cache.entry? other := by
    intro other
    rw [hcache, Cache.entry?_offer_of_not_admits hrefused, hasked]
  constructor
  · rw [Cache.isResident_of_extends hextends hentry hs.entry_known, Cache.isResident,
      Arena.get?_fresh_of_storeIn hstore]
  · exact allocates_of_miss (Cache.probe_eq_miss_of_extends hextends hentry hs.entry_known
      (fun id n hn => (hformed id n hn).keyHash) hmiss)

end Built

/-- The cache and the builder of nodes agree. Whatever was done before, also if nodes were offered
by others: after a miss a node is built that has the hash of the miss and the key that was probed
for, and that a cache may hold. It is stored if and only if every child has no slots or is resident.
Then the request is answered from the cache when it is repeated, and otherwise it makes another
node. -/
theorem probe_agrees_with_build (instanceNumber sizeBits : ℕ) (actions : List Action)
    (hmiss : (((ofCache instanceNumber (.ofBits sizeBits)).run actions).cache.probe
      ((ofCache instanceNumber (.ofBits sizeBits)).run actions).arena
      ⟨kind, flags.undecorated, slots⟩).1 = .miss hash) :
    let s := (ofCache instanceNumber (.ofBits sizeBits)).run actions
    let key : NodeKey := ⟨kind, flags.undecorated, slots⟩
    let n := assemble s.arena key
    n.keyHash = hash ∧ n.isCacheable = true ∧ n.Matches s.arena key ∧
      s.Allocates kind flags slots ∧
      ∀ id t, s.node kind flags slots = .ok (id, t) →
        let offered := (s.cache.probe s.arena key).2.offer t.arena id hash
        t.cache = offered.2 ∧
          (offered.1 = true ↔ ∀ child ∈ key.children, s.cache.Supports s.arena child) ∧
          (offered.1 = true → t.cache.isResident t.arena id = true ∧
            t.node kind flags slots =
              .ok (id, { t with cache := (t.cache.probe t.arena key).2 })) ∧
          (offered.1 = false → t.cache.isResident t.arena id = false ∧
            t.Allocates kind flags slots) := by
  intro s key n
  have hs : s.Sound := (sound_ofBits instanceNumber sizeBits).run actions
  obtain ⟨hkey, -, hhash⟩ := (Cache.probe_eq_miss_iff fun id m hget =>
    (hs.formed id m hget).keyHash).mp hmiss
  refine ⟨?_, hkey.isCacheable_assemble, Node.matches_iff.mpr (key_assemble s.arena key),
    allocates_of_miss hmiss, ?_⟩
  · rw [hhash, keyHash_assemble]
  intro id t hnode offered
  obtain ⟨hstore, hcache⟩ := stored_and_offered_of_miss hmiss hnode
  have hasked := Cache.entry?_probe s.cache s.arena key
  have hoffered : offered.1 = (s.cache.probe s.arena key).2.admits t.arena id hash :=
    Cache.offer_fst ..
  refine ⟨hcache, ?_, ?_, ?_⟩
  · rw [hoffered, hhash]
    exact admits_built_iff hs hkey hstore hasked
  · rw [hoffered, hhash]
    intro hadmits
    exact node_of_accepted hs hkey hstore hadmits (hhash ▸ hcache)
  · rw [hoffered]
    intro hrefused
    exact allocates_of_refused hs hstore hasked hmiss (Bool.eq_false_iff.mp hrefused) hcache

/-- A node over a token is found again. When the cache has been emptied, the parent of that node is
refused. -/
theorem probe_agrees_with_build_after_clear :
    let s := (ofCache 1 (.ofBits 4)).run [.request (.token ⟨10⟩ "a")]
    let s' := (ofCache 1 (.ofBits 4)).run [.request (.token ⟨10⟩ "a"),
      .request (.node ⟨20⟩ .present [some ⟨37⟩]), .onCache .clear]
    let key : NodeKey := ⟨⟨20⟩, Flags.undecorated .present, [some ⟨37⟩]⟩
    let key' : NodeKey := ⟨⟨21⟩, Flags.undecorated .present, [some ⟨24⟩]⟩
    (s.cache.probe s.arena key).1 = .miss 2004019052 ∧
      (s'.cache.probe s'.arena key').1 = .miss 1293858123 ∧
      (∃ t v, s.node ⟨20⟩ .present [some ⟨37⟩] = .ok (⟨24⟩, t) ∧
        t.node ⟨20⟩ .present [some ⟨37⟩] = .ok (⟨24⟩, v)) ∧
      ∃ t, s'.node ⟨21⟩ .present [some ⟨24⟩] = .ok (⟨39⟩, t) ∧
        t.cache.isResident t.arena ⟨39⟩ = false ∧ t.Allocates ⟨21⟩ .present [some ⟨24⟩] := by
  intro s s' key key'
  have hmiss : (s.cache.probe s.arena key).1 = .miss 2004019052 := by decide +kernel
  have hmiss' : (s'.cache.probe s'.arena key').1 = .miss 1293858123 := by decide +kernel
  refine ⟨hmiss, hmiss', ?_, ?_⟩
  · obtain ⟨⟨id, t⟩, hnode, hid⟩ := Outcome.exists_of_passes
      (show Outcome.passes (s.node ⟨20⟩ .present [some ⟨37⟩]) (·.1 == ⟨24⟩) = true by
        decide +kernel)
    obtain rfl : id = ⟨24⟩ := beq_iff_eq.mp hid
    obtain ⟨-, -, -, -, hbuilt⟩ := probe_agrees_with_build 1 4 _ hmiss
    obtain ⟨-, hiff, haccepted, -⟩ := hbuilt ⟨24⟩ t hnode
    have hsupported : ∀ child ∈ key.children, s.cache.Supports s.arena child := by
      simp only [← Cache.admitsChild_iff]
      decide +kernel
    exact ⟨t, _, hnode, (haccepted (hiff.mpr hsupported)).2⟩
  · obtain ⟨⟨id, t⟩, hnode, hid⟩ := Outcome.exists_of_passes
      (show Outcome.passes (s'.node ⟨21⟩ .present [some ⟨24⟩]) (·.1 == ⟨39⟩) = true by
        decide +kernel)
    obtain rfl : id = ⟨39⟩ := beq_iff_eq.mp hid
    obtain ⟨-, -, -, -, hbuilt⟩ := probe_agrees_with_build 1 4 _ hmiss'
    obtain ⟨-, hiff, -, hrefused⟩ := hbuilt ⟨39⟩ t hnode
    have hunsupported : ¬ ∀ child ∈ key'.children, s'.cache.Supports s'.arena child := by
      simp only [← Cache.admitsChild_iff]
      decide +kernel
    exact ⟨t, hnode, hrefused (Bool.eq_false_iff.mpr (mt hiff.mp hunsupported))⟩

end Store
end GreenTree
