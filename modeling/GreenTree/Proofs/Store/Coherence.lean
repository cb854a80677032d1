import GreenTree.Proofs.Cache.Entries
import GreenTree.Proofs.Outcome
import GreenTree.Proofs.Store.Assembly

/-!
# Coherence of a store

A token table names the tokens it was asked for, and a cache names nodes that were assembled from
known children. Such a node is determined by its key, so the comparison of keys that precedes a hit
is a comparison of nodes, and every operation answers with the id of the node it would have built.
-/

namespace GreenTree

/-- The id names a node that was assembled from known children. -/
def Arena.Assembled (arena : Arena) (id : NodeId) : Prop :=
  ∃ key, arena.get? id = some (Store.assemble arena key) ∧
    ∀ child ∈ key.children, ∃ n, arena.get? child = some n

/-- The arena after at most one node was stored. -/
def Arena.Step (a b : Arena) : Prop := b = a ∨ ∃ n id, a.store n = .ok (id, b)

/-- Every entry names an assembled node. -/
def Cache.Coherent (c : Cache) (arena : Arena) : Prop :=
  ∀ hash hash' id, c.entry? hash = some (hash', id) → arena.Assembled id

/-- Every token key is answered by the id of its token. -/
def TokenTable.Coherent (t : TokenTable) (arena : Arena) : Prop :=
  ∀ key id, t.find? key = some id →
    ∃ n, Node.token key.kind key.flags key.text = .ok n ∧ arena.get? id = some n

namespace Arena

variable {a b : Arena}

theorem Step.extends (h : a.Step b) : a.Extends b := by
  obtain rfl | ⟨n, id, hstore⟩ := h
  · exact Extends.refl b
  · exact extends_of_store hstore

theorem Step.shardsWithin (h : a.Step b) {count : ℕ} (ha : a.ShardsWithin count) :
    b.ShardsWithin (count + 1) := by
  obtain rfl | ⟨n, id, hstore⟩ := h
  · exact ha.succ
  · exact ha.of_store hstore

theorem Assembled.of_extends {id : NodeId} (h : a.Assembled id) (hab : a.Extends b) :
    b.Assembled id := by
  obtain ⟨key, hget, hknown⟩ := h
  refine ⟨key, ?_, hab.known hknown⟩
  rw [Store.assemble_of_extends hab hknown]
  exact hab id _ hget

/-- Among assembled nodes, one with the key of another is that one. -/
theorem Assembled.eq_assemble {id : NodeId} (h : a.Assembled id) {n : Node}
    (hget : a.get? id = some n) {key : NodeKey} (hkey : n.key = (Store.assemble a key).key) :
    n = Store.assemble a key := by
  obtain ⟨own, hown, -⟩ := h
  rw [hget, Option.some.injEq] at hown
  calc n = Store.assemble a n.key := by rw [hown, Store.assemble_key_assemble]
    _ = Store.assemble a key := by rw [hkey, Store.assemble_key_assemble]

end Arena

theorem Cache.Coherent.of_extends {c : Cache} {a b : Arena} (h : c.Coherent a)
    (hab : a.Extends b) : c.Coherent b := by
  intro hash hash' id hentry
  exact (h hash hash' id hentry).of_extends hab

theorem Cache.Coherent.offer {c : Cache} {arena : Arena} (h : c.Coherent arena) {id : NodeId}
    (hid : arena.Assembled id) {hash : UInt32} (hhash : hash.toNat < 2 ^ 31) :
    (c.offer arena id hash).2.Coherent arena := by
  intro other hash' id' hentry
  obtain ⟨rfl, -⟩ | hold := Cache.admitted_or_entry?_of_offer (fun _ => hhash) hentry
  · exact hid
  · exact h other hash' id' hold

theorem TokenTable.Coherent.of_extends {t : TokenTable} {a b : Arena} (h : t.Coherent a)
    (hab : a.Extends b) : t.Coherent b := by
  intro key id hfind
  obtain ⟨n, hn, hget⟩ := h key id hfind
  exact ⟨n, hn, hab id n hget⟩

namespace Store

structure Coherent (s : Store) : Prop where
  tokens : s.tokens.Coherent s.arena
  cache : s.cache.Coherent s.arena

/-- What an operation does that answers with `id` for the node `n`: it stores one node at most and
keeps the store coherent. -/
structure Serves (s s' : Store) (id : NodeId) (n : Node) : Prop where
  coherent : s'.Coherent
  step : s.arena.Step s'.arena
  get? : s'.arena.get? id = some n

variable {s s' : Store} {id : NodeId} {kind : Kind} {flags : Flags}

theorem tokens_coherent_ofCache (instanceNumber : ℕ) (cache : Cache) :
    (ofCache instanceNumber cache).tokens.Coherent (ofCache instanceNumber cache).arena := by
  intro key id hfind
  change TokenTable.empty.find? key = some id at hfind
  rw [TokenTable.find?_empty] at hfind
  cases hfind

theorem coherent_ofBits (instanceNumber sizeBits : ℕ) :
    (ofCache instanceNumber (.ofBits sizeBits)).Coherent := by
  constructor
  · exact tokens_coherent_ofCache instanceNumber _
  · intro hash hash' id hentry
    change Cache.entry? (.ofBits sizeBits) hash = some (hash', id) at hentry
    rw [Cache.entry?_ofBits] at hentry
    cases hentry

theorem Coherent.probe (hs : s.Coherent) (arena : Arena) (key : NodeKey) :
    Coherent { s with cache := (s.cache.probe arena key).2 } := by
  refine ⟨hs.tokens, ?_⟩
  intro hash hash' id hentry
  rw [Cache.entry?_probe] at hentry
  exact hs.cache hash hash' id hentry

theorem Coherent.clear (hs : s.Coherent) : Coherent { s with cache := s.cache.clear } := by
  refine ⟨hs.tokens, ?_⟩
  intro hash hash' id hentry
  rw [Cache.entry?_clear] at hentry
  cases hentry

theorem store_eq_ok {n : Node} (h : s.store n = .ok (id, s')) :
    ∃ arena, s.arena.store n = .ok (id, arena) ∧ s' = { s with arena } := by
  rw [store, Outcome.bind_eq_ok_iff] at h
  obtain ⟨⟨id', arena⟩, hstore, h⟩ := h
  cases h
  exact ⟨arena, hstore, rfl⟩

theorem store_serves (hs : s.Coherent) {n : Node} (h : s.store n = .ok (id, s')) :
    s.Serves s' id n := by
  obtain ⟨arena, hstore, rfl⟩ := store_eq_ok h
  have hextends := Arena.extends_of_store hstore
  exact ⟨⟨hs.tokens.of_extends hextends, hs.cache.of_extends hextends⟩, .inr ⟨n, id, hstore⟩,
    Arena.get?_stored hstore⟩

/-- A token request either finds the token in the table or stores it and enters it there. -/
theorem token_cases {text : String} (h : s.token kind flags text = .ok (id, s')) :
    let key : TokenKey := ⟨text, kind, flags.ofToken⟩
    (s.tokens.find? key = some id ∧ s' = s) ∨
      s.tokens.find? key = none ∧ ∃ n arena, Node.token kind flags.ofToken text = .ok n ∧
        s.arena.store n = .ok (id, arena) ∧
        s' = { s with arena, tokens := s.tokens.insert key id } := by
  intro key
  rw [token] at h
  rcases hfind : s.tokens.find? key with _ | found
  · simp only [key] at hfind
    simp only [hfind, Outcome.bind_eq_ok_iff] at h
    obtain ⟨n, hn, ⟨made, t⟩, hstore, h⟩ := h
    cases h
    obtain ⟨arena, hstored, rfl⟩ := store_eq_ok hstore
    exact .inr ⟨rfl, n, arena, hn, hstored, rfl⟩
  · simp only [key] at hfind
    simp only [hfind] at h
    cases h
    exact .inl ⟨rfl, rfl⟩

/-- A token request answers with the id of the token, made now or earlier, and leaves a table that
tells the truth about every token. -/
theorem token_coherent (hs : s.tokens.Coherent s.arena) {text : String}
    (h : s.token kind flags text = .ok (id, s')) :
    s'.tokens.Coherent s'.arena ∧
      ∃ n, Node.token kind flags.ofToken text = .ok n ∧ s'.arena.get? id = some n := by
  obtain ⟨hfind, rfl⟩ | ⟨-, n, arena, hn, hstore, rfl⟩ := token_cases h
  · exact ⟨hs, hs _ _ hfind⟩
  · have hget := Arena.get?_stored hstore
    refine ⟨?_, n, hn, hget⟩
    intro key other hother
    change (s.tokens.insert _ _).find? key = some other at hother
    rw [TokenTable.find?_insert] at hother
    split_ifs at hother with heq
    · cases hother
      subst heq
      exact ⟨n, hn, hget⟩
    · exact hs.of_extends (Arena.extends_of_store hstore) key other hother

theorem token_serves (hs : s.Coherent) {text : String}
    (h : s.token kind flags text = .ok (id, s')) :
    ∃ n, Node.token kind flags.ofToken text = .ok n ∧ s.Serves s' id n := by
  obtain ⟨htokens, n, hn, hget⟩ := token_coherent hs.tokens h
  refine ⟨n, hn, ?_⟩
  obtain ⟨-, rfl⟩ | ⟨-, m, arena, -, hstore, rfl⟩ := token_cases h
  · exact ⟨hs, .inl rfl, hget⟩
  · have hextends := Arena.extends_of_store hstore
    exact ⟨⟨htokens, hs.cache.of_extends hextends⟩, .inr ⟨m, id, hstore⟩, hget⟩

theorem missingToken_serves (hs : s.Coherent) (h : s.missingToken kind = .ok (id, s')) :
    ∃ n, Node.token kind .none "" = .ok n ∧ s.Serves s' id n := by
  rw [missingToken, Outcome.bind_eq_ok_iff] at h
  obtain ⟨n, hn, hstore⟩ := h
  exact ⟨n, hn, store_serves hs hstore⟩

/-- How a request for a node is answered, by the answer to the probe. -/
theorem node_probed {slots : List (Option NodeId)}
    (h : s.node kind flags slots = .ok (id, s')) :
    let key : NodeKey := ⟨kind, flags.undecorated, slots⟩
    let cache := (s.cache.probe s.arena key).2
    ((s.cache.probe s.arena key).1 = .hit id ∧ s' = { s with cache }) ∨
      ∃ arena, s.arena.store (assemble s.arena key) = .ok (id, arena) ∧
        ((s.cache.probe s.arena key).1 = .ineligible ∧ s' = { s with arena, cache } ∨
          ∃ hash, (s.cache.probe s.arena key).1 = .miss hash ∧
            s' = { s with arena, cache := (cache.offer arena id hash).2 }) := by
  intro key cache
  simp only [node] at h
  rcases hanswer : (s.cache.probe s.arena key).1 with found | hash | _
  · rw [hanswer] at h
    cases h
    exact .inl ⟨rfl, rfl⟩
  · rw [hanswer, Outcome.bind_eq_ok_iff] at h
    obtain ⟨⟨made, t⟩, hbuild, h⟩ := h
    cases h
    obtain ⟨arena, hstore, rfl⟩ := store_eq_ok hbuild
    exact .inr ⟨arena, hstore, .inr ⟨hash, rfl, rfl⟩⟩
  · rw [hanswer] at h
    obtain ⟨arena, hstore, rfl⟩ := store_eq_ok h
    exact .inr ⟨arena, hstore, .inl ⟨rfl, rfl⟩⟩

/-- A node request either finds the key of the node in the cache or stores the node, and then may
offer it. -/
theorem node_cases {slots : List (Option NodeId)} (h : s.node kind flags slots = .ok (id, s')) :
    let key : NodeKey := ⟨kind, flags.undecorated, slots⟩
    let cache := (s.cache.probe s.arena key).2
    (∃ effective, key.effective? s.arena = some effective ∧
        s.cache.lookup? s.arena effective effective.hash = some id ∧ s' = { s with cache }) ∨
      ∃ arena, s.arena.store (assemble s.arena key) = .ok (id, arena) ∧
        (s' = { s with arena, cache } ∨
          ∃ effective, key.effective? s.arena = some effective ∧
            s' = { s with arena, cache := (cache.offer arena id effective.hash).2 }) := by
  intro key cache
  obtain ⟨hhit, rfl⟩ | ⟨arena, hstore, ⟨-, rfl⟩ | ⟨hash, hmiss, rfl⟩⟩ := node_probed h
  · obtain ⟨effective, heffective, hfound⟩ := Cache.lookup?_of_hit hhit
    exact .inl ⟨effective, heffective, hfound, rfl⟩
  · exact .inr ⟨arena, hstore, .inl rfl⟩
  · obtain ⟨effective, heffective, rfl⟩ := Cache.effective?_of_miss hmiss
    exact .inr ⟨arena, hstore, .inr ⟨effective, heffective, rfl⟩⟩

/-- A node request answers with the id of the node it would build, whatever the cache holds. -/
theorem node_serves (hs : s.Coherent) {slots : List (Option NodeId)}
    (h : s.node kind flags slots = .ok (id, s')) :
    s.Serves s' id (assemble s.arena ⟨kind, flags.undecorated, slots⟩) := by
  have hprobed := hs.probe s.arena ⟨kind, flags.undecorated, slots⟩
  obtain ⟨effective, heffective, hfound, rfl⟩ | ⟨arena, hstore, hs'⟩ := node_cases h
  · obtain ⟨hentry, n, hget, hkey⟩ := Cache.lookup?_eq_some_iff.mp hfound
    have hn := (hs.cache _ _ id hentry).eq_assemble hget
      (hkey.trans (effective?_eq_some heffective).1)
    exact ⟨hprobed, .inl rfl, hn ▸ hget⟩
  · have hextends := Arena.extends_of_store hstore
    have hget := Arena.get?_stored hstore
    have htokens := hs.tokens.of_extends hextends
    have hcache := hprobed.cache.of_extends hextends
    obtain rfl | ⟨effective, heffective, rfl⟩ := hs'
    · exact ⟨⟨htokens, hcache⟩, .inr ⟨_, id, hstore⟩, hget⟩
    · have hknown : ∀ child ∈ NodeKey.children ⟨kind, flags.undecorated, slots⟩,
          ∃ n, s.arena.get? child = some n := by
        intro child hchild
        obtain ⟨n, hn, -⟩ := (effective?_eq_some heffective).2 child hchild
        exact ⟨n, hn⟩
      have hassembled : arena.Assembled id := by
        refine ⟨⟨kind, flags.undecorated, slots⟩, ?_, hextends.known hknown⟩
        rw [assemble_of_extends hextends hknown]
        exact hget
      exact ⟨⟨htokens, hcache.offer hassembled effective.hash_lt⟩, .inr ⟨_, id, hstore⟩, hget⟩

theorem copyWith_serves (hs : s.Coherent) {source : NodeId} {n : Node}
    (hget : s.arena.get? source = some n) {change : Node → Node}
    (h : s.copyWith source change = .ok (id, s')) : s.Serves s' id (change n) := by
  rw [copyWith, Store.get?, hget] at h
  exact store_serves hs h

section Room

/-! As long as every shard has room for one more node, only a text that is too long stops an
operation. -/

variable {count : ℕ} (hrows : s.arena.ShardsWithin count) (hcount : count ≤ Limits.maxShardIndex)

include hrows hcount

theorem exists_store (n : Node) : ∃ id s', s.store n = .ok (id, s') := by
  obtain ⟨id, arena, hstore⟩ := hrows.exists_store hcount n
  refine ⟨id, { s with arena }, ?_⟩
  rw [store, hstore]
  rfl

theorem exists_token (kind : Kind) (flags : Flags) {text : String}
    (htext : text.utf8ByteSize ≤ Limits.maxWidth.toNat) :
    ∃ id s', s.token kind flags text = .ok (id, s') := by
  rw [token]
  cases s.tokens.find? ⟨text, kind, flags.ofToken⟩ with
  | some found => exact ⟨found, s, rfl⟩
  | none =>
    obtain ⟨n, hn⟩ : ∃ n, Node.token kind flags.ofToken text = .ok n := by
      rw [Node.token, if_pos htext]
      exact ⟨_, rfl⟩
    obtain ⟨id, s', hstore⟩ := exists_store hrows hcount n
    refine ⟨id, { s' with tokens := s'.tokens.insert ⟨text, kind, flags.ofToken⟩ id }, ?_⟩
    simp only [hn, hstore, Outcome.ok_bind]
    rfl

theorem exists_missingToken (kind : Kind) : ∃ id s', s.missingToken kind = .ok (id, s') := by
  rw [missingToken, Node.token, if_pos (by decide)]
  exact exists_store hrows hcount _

theorem exists_node (kind : Kind) (flags : Flags) (slots : List (Option NodeId)) :
    ∃ id s', s.node kind flags slots = .ok (id, s') := by
  simp only [node]
  generalize s.cache.probe s.arena ⟨kind, flags.undecorated, slots⟩ = probed
  obtain ⟨answer, cache⟩ := probed
  obtain ⟨made, t, hbuild⟩ := exists_store (s := { s with cache }) hrows hcount
    (assemble s.arena ⟨kind, flags.undecorated, slots⟩)
  change Store.build { s with cache } ⟨kind, flags.undecorated, slots⟩ = _ at hbuild
  cases answer with
  | hit found => exact ⟨found, _, rfl⟩
  | ineligible => exact ⟨made, t, hbuild⟩
  | miss hash =>
    refine ⟨made, { t with cache := (t.cache.offer t.arena made hash).2 }, ?_⟩
    simp only [hbuild, Outcome.ok_bind]
    rfl

theorem exists_copyWith (source : NodeId) (change : Node → Node) :
    ∃ id s', s.copyWith source change = .ok (id, s') := by
  rw [copyWith]
  cases s.get? source with
  | none => exact ⟨source, s, rfl⟩
  | some n => exact exists_store hrows hcount (change n)

end Room

end Store
end GreenTree
