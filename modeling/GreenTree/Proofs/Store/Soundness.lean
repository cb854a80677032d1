import GreenTree.Proofs.Node.Flags
import GreenTree.Proofs.Store.Actions

/-!
# What an offer is checked for

Whoever offers a node, a cache looks at its hash, at its flags and slots, and at the children. So
every entry stands in the slot of its hash, which is that of the node it names, and that node may be
held by itself. An entry that an action leaves was there before or has just passed these checks.
-/

namespace GreenTree

/-- Hash, slots and flags of the node belong together: the hash is that of the key, a token has no
slots, and diagnostics and annotations show in the flags, even if there are none in the list. -/
structure Node.Formed (n : Node) : Prop where
  keyHash : n.keyHash = n.key.hash
  slots : n.isToken = true → n.slots = []
  decorated : n.diagnostics ≠ none ∨ n.annotations ≠ none → n.flags.isDecorated = true

theorem Node.formed_assemble (arena : Arena) (key : NodeKey) :
    (Store.assemble arena key).Formed := by
  rw [Store.assemble_eq]
  exact ⟨rfl, fun h => absurd h Bool.false_ne_true, fun h => h.elim (absurd rfl) (absurd rfl)⟩

/-- A well-formed node that a cache may hold has neither diagnostics nor annotations. -/
theorem Node.Formed.bare {n : Node} (hn : n.Formed) (hcacheable : n.isCacheable = true) :
    n.diagnostics = none ∧ n.annotations = none := by
  simp only [isCacheable, Bool.and_eq_true, Bool.not_eq_true'] at hcacheable
  have hplain : ¬ (n.diagnostics ≠ none ∨ n.annotations ≠ none) := by
    intro h
    rw [hn.decorated h] at hcacheable
    cases hcacheable.1.2
  simpa only [not_or, not_not] using hplain

/-- Every node of the arena is well-formed. -/
def Arena.Formed (arena : Arena) : Prop := ∀ id n, arena.get? id = some n → n.Formed

namespace Arena.Formed

variable {a b : Arena} {n : Node} {id : NodeId}

theorem made (ha : a.Formed) (hn : n.Made a) : n.Formed := by
  cases hn with
  | token hn =>
    rw [Node.token] at hn
    split_ifs at hn
    cases hn
    exact ⟨rfl, fun _ => rfl, fun h => h.elim (absurd rfl) (absurd rfl)⟩
  | diagnosed hget diagnostics =>
    exact ⟨rfl, (ha _ _ hget).slots, fun _ => (Flags.or_meets_iff _ _ _).mpr (.inr (by decide))⟩
  | annotated hget annotations =>
    exact ⟨rfl, (ha _ _ hget).slots, fun _ => (Flags.or_meets_iff _ _ _).mpr (.inr (by decide))⟩

theorem store (ha : a.Formed) (hn : n.Formed) (h : a.store n = .ok (id, b)) : b.Formed := by
  intro other m hm
  obtain ⟨-, rfl⟩ | hm := new_or_known_of_store h hm
  · exact hn
  · exact ha other m hm

theorem change {s s' : Store} {action : Store.Action} (hs : s.arena.Formed)
    (h : s.Change action s') : s'.arena.Formed := by
  cases h with
  | kept harena _ => exact harena ▸ hs
  | stored hn hstore _ => exact hs.store (hs.made hn) hstore
  | built _ hstore _ => exact hs.store (Node.formed_assemble _ _) hstore
  | offered _ harena _ => exact harena ▸ hs
  | cleared harena _ => exact harena ▸ hs

theorem hash_lt_of_admits (ha : a.Formed) {c : Cache} {hash : UInt32}
    (h : c.admits a id hash = true) : hash.toNat < 2 ^ 31 :=
  Cache.hash_lt_of_admits (fun id n hget => (ha id n hget).keyHash) h

end Arena.Formed

theorem Arena.formed_empty : Arena.empty.Formed := by
  intro id n h
  simp [get?, empty, Vector.get] at h

theorem Cache.slot_val_eq {c c' : Cache} (h : c'.sizeBits = c.sizeBits) (hash : UInt32) :
    (c'.slot hash).val = (c.slot hash).val := by
  change hash.toNat &&& (slotCount c'.sizeBits - 1) = hash.toNat &&& (slotCount c.sizeBits - 1)
  rw [h]

namespace Store

variable {s s' : Store} {action : Action} {hash hash' : UInt32} {id : NodeId} {id? : Option NodeId}

/-- Where an entry comes from that an action leaves: it was there before, or it has just been
admitted, to its slot, as the node built for a key over children that a cache may hold, or as an
offered node. -/
theorem Change.origin (h : s.Change action s') (harena : s'.arena.Formed)
    (hentry : s'.cache.entry? hash = some (hash', id)) :
    s.cache.entry? hash = some (hash', id) ∨
      (s.cache.slot hash).val = (s.cache.slot hash').val ∧
        s.cache.admits s'.arena id hash' = true ∧
          (action = .onCache (.offer id hash') ∧ s'.arena = s.arena ∨
            ∃ key, action.key? = some key ∧
              s.arena.store (assemble s.arena key) = .ok (id, s'.arena) ∧
              ∀ child ∈ key.children, ∃ m, s.arena.get? child = some m ∧ m.isCacheable = true) := by
  cases h with
  | kept _ hcache =>
    rw [hcache.entry?_eq] at hentry
    exact .inl hentry
  | stored _ _ hcache =>
    rw [hcache.entry?_eq] at hentry
    exact .inl hentry
  | built hkey hstore hcache =>
    obtain hcache | ⟨effective, heffective, hcache⟩ := hcache
    · rw [hcache.entry?_eq] at hentry
      exact .inl hentry
    · rw [hcache.entry?_eq] at hentry
      obtain ⟨rfl, rfl, hslot, hadmits⟩ | hold :=
        Cache.admitted_or_entry?_of_offer harena.hash_lt_of_admits hentry
      · exact .inr ⟨congrArg Fin.val hslot, hadmits,
          .inr ⟨_, hkey, hstore, (effective?_eq_some heffective).2⟩⟩
      · exact .inl hold
  | offered haction hsame hcache =>
    rw [hcache.entry?_eq] at hentry
    obtain ⟨rfl, rfl, hslot, hadmits⟩ | hold :=
      Cache.admitted_or_entry?_of_offer (hsame ▸ harena).hash_lt_of_admits hentry
    · rw [← hsame] at hadmits
      exact .inr ⟨congrArg Fin.val hslot, hadmits, .inl ⟨haction, hsame⟩⟩
    · exact .inl hold
  | cleared _ hcache =>
    rw [hcache.entry?_eq, Cache.entry?_clear] at hentry
    cases hentry

/-- Nodes are well-formed, and every entry stands in the slot of its hash, which is that of the node
it names, and that node may be held by itself. -/
structure Sound (s : Store) : Prop where
  formed : s.arena.Formed
  entry : ∀ hash hash' id, s.cache.entry? hash = some (hash', id) →
    (s.cache.slot hash).val = (s.cache.slot hash').val ∧
      ∃ n, s.arena.get? id = some n ∧ n.keyHash = hash' ∧ n.isCacheable = true

theorem sound_ofBits (instanceNumber sizeBits : ℕ) :
    (ofCache instanceNumber (.ofBits sizeBits)).Sound where
  formed := Arena.formed_empty
  entry _ _ _ hentry := absurd hentry Cache.entry?_ofBits_ne

theorem Sound.change (hs : s.Sound) (hchange : s.Change action s') : s'.Sound := by
  have hformed := hs.formed.change hchange
  refine ⟨hformed, ?_⟩
  intro hash hash' id hentry
  rw [Cache.slot_val_eq hchange.sizeBits_eq, Cache.slot_val_eq hchange.sizeBits_eq]
  obtain hold | ⟨hslot, hadmits, -⟩ := hchange.origin hformed hentry
  · obtain ⟨hslot, n, hget, hn⟩ := hs.entry hash hash' id hold
    exact ⟨hslot, n, hchange.extends id n hget, hn⟩
  · obtain ⟨n, hget, hkey, hcacheable, -⟩ := Cache.admits_iff.mp hadmits
    exact ⟨hslot, n, hget, hkey, hcacheable⟩

theorem Sound.act (hs : s.Sound) (h : s.act action = .ok (id?, s')) : s'.Sound :=
  hs.change (change_of_act h)

theorem Sound.run (hs : s.Sound) (actions : List Action) : (s.run actions).Sound :=
  Run.last_preserves Sound (fun _ _ _ _ _ hs h => hs.act h) hs

end Store
end GreenTree
