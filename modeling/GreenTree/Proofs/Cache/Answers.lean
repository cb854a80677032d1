import GreenTree.Proofs.Cache.History
import GreenTree.Proofs.Store.Assembly

/-!
# Answers to a probe

A probe looks into one slot only and compares what it finds there. Nothing is overlooked in this
way: a node has the hash of its key however it was made, so a resident node with the key that is
looked for holds the very slot that is looked into.
-/

namespace GreenTree

/-- A cache may hold the node built for this key: it has few slots, it is present and bears no
decoration, and all its children are known and may be held themselves. -/
structure NodeKey.Eligible (key : NodeKey) (arena : Arena) : Prop where
  small : key.slots.length ≤ 3
  present : key.flags.isMissing = false
  undecorated : key.flags.isDecorated = false
  children : ∀ child ∈ key.children, ∃ n, arena.get? child = some n ∧ n.isCacheable = true

namespace Node

/-- The node has the kind and the slots of the key, and its flags united with those that the
children pass up. -/
structure Matches (n : Node) (arena : Arena) (key : NodeKey) : Prop where
  kind : n.kind = key.kind
  slots : n.slots = key.slots
  flags : n.flags = flagsOver key.flags (arena.known key.children)

/-- The node was made for a key, for a text or as a decorated copy. -/
inductive Built : Node → Prop
  | interior (key : NodeKey) (width : UInt32) : Built (.interior key width)
  | token {kind : Kind} {flags : Flags} {text : String} {n : Node}
      (hn : Node.token kind flags text = .ok n) : Built n
  | diagnosed {n : Node} (hn : Built n) (diagnostics : List Diagnostic) :
      Built (n.diagnose diagnostics)
  | annotated {n : Node} (hn : Built n) (annotations : List Marker) :
      Built (n.annotate annotations)

theorem matches_iff {n : Node} {arena : Arena} {key : NodeKey} :
    n.Matches arena key ↔ n.key = arena.effectiveKey key := by
  constructor
  · rintro ⟨hkind, hslots, hflags⟩
    calc n.key = ⟨n.kind, n.flags, n.slots⟩ := rfl
      _ = arena.effectiveKey key := by rw [hkind, hslots, hflags]; rfl
  · intro h
    rw [Arena.effectiveKey] at h
    constructor
    · rw [kind, h]
    · rw [slots, h]
    · rw [flags, h]

/-- Decoration changes the flags, and the hash with them. -/
theorem Built.keyHash_eq {n : Node} (h : n.Built) : n.keyHash = n.key.hash := by
  cases h with
  | interior key width => rfl
  | token hn =>
    rw [Node.token] at hn
    split_ifs at hn
    cases hn
    rfl
  | diagnosed hn diagnostics => rfl
  | annotated hn annotations => rfl

end Node

namespace NodeKey

variable {arena : Arena} {key effective : NodeKey}

theorem effective?_eq_some_iff :
    key.effective? arena = some effective ↔
      key.Eligible arena ∧ effective = arena.effectiveKey key := by
  constructor
  · intro h
    obtain ⟨hkey, hchildren⟩ := Store.effective?_eq_some h
    rw [effective?] at h
    split_ifs at h with hrefused
    simp only [not_or, not_lt, Bool.not_eq_true] at hrefused
    obtain ⟨hsmall, hpresent, hundecorated⟩ := hrefused
    exact ⟨⟨hsmall, hpresent, hundecorated, hchildren⟩, hkey.trans (Store.key_assemble arena key)⟩
  · rintro ⟨⟨hsmall, hpresent, hundecorated, hchildren⟩, rfl⟩
    rw [effective?, if_neg, Store.inherit?_of_cacheable hchildren]
    · rfl
    · simp only [not_or, not_lt, Bool.not_eq_true]
      exact ⟨hsmall, hpresent, hundecorated⟩

theorem effective?_eq_none_iff : key.effective? arena = none ↔ ¬ key.Eligible arena := by
  rw [Option.eq_none_iff_forall_ne_some]
  simp only [ne_eq, effective?_eq_some_iff, not_and]
  constructor
  · exact fun h heligible => h _ heligible rfl
  · exact fun h _ heligible => absurd heligible h

end NodeKey

namespace Cache

/-- The id is resident, and its node matches the key. -/
structure HoldsMatch (c : Cache) (arena : Arena) (key : NodeKey) (id : NodeId) : Prop where
  resident : c.isResident arena id = true
  node : ∃ n, arena.get? id = some n ∧ n.Matches arena key

variable {c : Cache} {arena : Arena} {key : NodeKey} {id other : NodeId}

section Hashed

/-! Nodes have the hash of their key. -/

variable (harena : ∀ id n, arena.get? id = some n → n.keyHash = n.key.hash)

include harena

/-- The one slot that is looked into is that of every node with this key. -/
theorem lookup?_eq_some_iff_holdsMatch :
    c.lookup? arena (arena.effectiveKey key) (arena.effectiveKey key).hash = some id ↔
      c.HoldsMatch arena key id := by
  rw [lookup?_eq_some_iff]
  constructor
  · rintro ⟨hentry, n, hget, hkey⟩
    have hhash : n.keyHash = (arena.effectiveKey key).hash := by rw [harena id n hget, hkey]
    exact ⟨isResident_iff.mpr ⟨n, hget, hhash ▸ hentry⟩, n, hget, Node.matches_iff.mpr hkey⟩
  · rintro ⟨hresident, n, hget, hn⟩
    obtain ⟨m, hm, hentry⟩ := isResident_iff.mp hresident
    rw [hget, Option.some.injEq] at hm
    subst hm
    have hkey := Node.matches_iff.mp hn
    rw [harena id n hget, hkey] at hentry
    exact ⟨hentry, n, hget, hkey⟩

theorem HoldsMatch.unique (h : c.HoldsMatch arena key id) (h' : c.HoldsMatch arena key other) :
    id = other := by
  have hfound := (lookup?_eq_some_iff_holdsMatch harena).mpr h
  have hfound' := (lookup?_eq_some_iff_holdsMatch harena).mpr h'
  exact Option.some.inj (hfound.symm.trans hfound')

theorem lookup?_eq_none_iff_holdsMatch :
    c.lookup? arena (arena.effectiveKey key) (arena.effectiveKey key).hash = none ↔
      ∀ id, ¬ c.HoldsMatch arena key id := by
  rw [Option.eq_none_iff_forall_ne_some]
  exact forall_congr' fun id => not_congr (lookup?_eq_some_iff_holdsMatch harena)

theorem probe_of_holdsMatch (hkey : key.Eligible arena) (h : c.HoldsMatch arena key id) :
    (c.probe arena key).1 = .hit id := by
  have heffective := NodeKey.effective?_eq_some_iff.mpr ⟨hkey, rfl⟩
  have hfound := (lookup?_eq_some_iff_holdsMatch harena).mpr h
  simp only [probe, heffective, hfound]

theorem probe_of_forall_not_holdsMatch (hkey : key.Eligible arena)
    (h : ∀ id, ¬ c.HoldsMatch arena key id) :
    (c.probe arena key).1 = .miss (arena.effectiveKey key).hash := by
  have heffective := NodeKey.effective?_eq_some_iff.mpr ⟨hkey, rfl⟩
  have hmissing := (lookup?_eq_none_iff_holdsMatch harena).mpr h
  simp only [probe, heffective, hmissing]

theorem probe_eq_hit_iff :
    (c.probe arena key).1 = .hit id ↔ key.Eligible arena ∧ c.HoldsMatch arena key id := by
  constructor
  · intro h
    obtain ⟨effective, heffective, hfound⟩ := lookup?_of_hit h
    obtain ⟨hkey, rfl⟩ := NodeKey.effective?_eq_some_iff.mp heffective
    exact ⟨hkey, (lookup?_eq_some_iff_holdsMatch harena).mp hfound⟩
  · rintro ⟨hkey, h⟩
    exact probe_of_holdsMatch harena hkey h

theorem probe_eq_miss_iff {hash : UInt32} :
    (c.probe arena key).1 = .miss hash ↔ key.Eligible arena ∧
      (∀ id, ¬ c.HoldsMatch arena key id) ∧ hash = (arena.effectiveKey key).hash := by
  constructor
  · intro h
    obtain ⟨effective, heffective, rfl⟩ := effective?_of_miss h
    obtain ⟨hkey, rfl⟩ := NodeKey.effective?_eq_some_iff.mp heffective
    refine ⟨hkey, ?_, rfl⟩
    intro id hid
    rw [probe_of_holdsMatch harena hkey hid] at h
    cases h
  · rintro ⟨hkey, h, rfl⟩
    exact probe_of_forall_not_holdsMatch harena hkey h

end Hashed

theorem probe_eq_ineligible_iff : (c.probe arena key).1 = .ineligible ↔ ¬ key.Eligible arena := by
  rw [← NodeKey.effective?_eq_none_iff, probe]
  rcases key.effective? arena with _ | effective
  · simp
  · rcases hlookup : c.lookup? arena effective effective.hash with _ | found <;> simp [hlookup]

/-- What a probe answers. For a cache of any size and whatever has been done with it and one arena,
the answer is a hit exactly if a cache may hold a node for the key and a resident node has the kind,
the slots and the flags of the key, those included that the children pass up. There is one such node
at most. Without one the answer is a miss under the hash of the node to be built, and a key that no
cache may hold a node for is ineligible. Every node that can be made may be stored, as it has the
hash of its key. -/
theorem probe_finds_resident_match (sizeBits : ℕ) (uses : List Use) (key : NodeKey) :
    let s := (Site.trace ⟨.empty, .ofBits sizeBits⟩ uses).2
    let answer := (s.cache.probe s.arena key).1
    (∀ id, answer = .hit id ↔ key.Eligible s.arena ∧ s.cache.HoldsMatch s.arena key id) ∧
      (∀ id other, s.cache.HoldsMatch s.arena key id → s.cache.HoldsMatch s.arena key other →
        id = other) ∧
      (∀ hash, answer = .miss hash ↔ key.Eligible s.arena ∧
        (∀ id, ¬ s.cache.HoldsMatch s.arena key id) ∧ hash = (s.arena.effectiveKey key).hash) ∧
      (answer = .ineligible ↔ ¬ key.Eligible s.arena) ∧
      ∀ n : Node, n.Built → n.keyHash = n.key.hash := by
  intro s answer
  have hs : s.Sound := (Site.trace_spec (Site.sound_start sizeBits) uses).1
  refine ⟨?_, ?_, ?_, probe_eq_ineligible_iff, ?_⟩
  · exact fun id => probe_eq_hit_iff hs.keyHash
  · exact fun id other hid hother => hid.unique hs.keyHash hother
  · exact fun hash => probe_eq_miss_iff hs.keyHash
  · exact fun n hn => hn.keyHash_eq

/-- Keys that differ in empty slots only have one hash, and are told apart all the same. A key with
four slots is not looked for. -/
theorem probe_finds_resident_match_beside_same_hash :
    let leaf := Node.interior ⟨⟨20⟩, .present, []⟩ 0
    let parent := Node.interior ⟨⟨21⟩, .present, [some ⟨41⟩, none]⟩ 0
    let swapped : NodeKey := { parent.key with slots := [none, some ⟨41⟩] }
    let wide : NodeKey := { parent.key with slots := [some ⟨41⟩, none, none, none] }
    let s := (Site.trace ⟨.empty, .ofBits 4⟩
      [.request ⟨leaf, rfl⟩, .request ⟨parent, rfl⟩, .onCache (.offer ⟨38⟩ parent.keyHash)]).2
    (s.cache.probe s.arena parent.key).1 = .hit ⟨38⟩ ∧
      s.cache.HoldsMatch s.arena parent.key ⟨38⟩ ∧
      (s.cache.probe s.arena swapped).1 = .miss parent.keyHash ∧
      (∀ id, ¬ s.cache.HoldsMatch s.arena swapped id) ∧
      (s.arena.effectiveKey swapped).hash = parent.keyHash ∧
      (s.cache.probe s.arena wide).1 = .ineligible ∧ ¬ wide.Eligible s.arena := by
  intro leaf parent swapped wide s
  let uses : List Use :=
    [.request ⟨leaf, rfl⟩, .request ⟨parent, rfl⟩, .onCache (.offer ⟨38⟩ parent.keyHash)]
  have hhit : (s.cache.probe s.arena parent.key).1 = .hit ⟨38⟩ := by decide +kernel
  have hmiss : (s.cache.probe s.arena swapped).1 = .miss parent.keyHash := by decide +kernel
  have hineligible : (s.cache.probe s.arena wide).1 = .ineligible := by decide +kernel
  obtain ⟨hit_iff, -⟩ := probe_finds_resident_match 4 uses parent.key
  obtain ⟨-, -, miss_iff, -⟩ := probe_finds_resident_match 4 uses swapped
  obtain ⟨-, -, -, ineligible_iff, -⟩ := probe_finds_resident_match 4 uses wide
  obtain ⟨-, hmatch⟩ := (hit_iff ⟨38⟩).mp hhit
  obtain ⟨-, hnone, hhash⟩ := (miss_iff parent.keyHash).mp hmiss
  exact ⟨hhit, hmatch, hmiss, hnone, hhash.symm, hineligible, ineligible_iff.mp hineligible⟩

end Cache
end GreenTree
