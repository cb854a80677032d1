import GreenTree.Proofs.Store.Soundness

/-!
# What a cache holds

A probe looks at the children of a key and no further, so a child that may be held can stand over
one that may not. An offer closes the gap: it asks for the children to be held themselves, and what
is held already is clean all the way down. Only a client that offers nodes by itself can break this.
-/

namespace GreenTree

/-- Neither missing nor decorated, and with few slots. -/
structure Node.Clean (n : Node) : Prop where
  present : n.isMissing = false
  undecorated : ∀ flag ∈ [Flags.hasDiagnostics, Flags.hasAnnotations, Flags.containsDiagnostics,
    Flags.containsAnnotations], n.flags.meets flag = false
  small : n.slots.length ≤ 3

theorem Node.clean_iff_isCacheable {n : Node} : n.Clean ↔ n.isCacheable = true := by
  have hdecorated : n.flags.isDecorated = false ↔ ∀ flag ∈ [Flags.hasDiagnostics,
      Flags.hasAnnotations, Flags.containsDiagnostics, Flags.containsAnnotations],
      n.flags.meets flag = false := by
    simp only [← Bool.not_eq_true, Flags.isDecorated, Flags.decoration, Flags.meets_or_iff,
      List.forall_mem_cons, List.not_mem_nil, not_or]
    tauto
  have hcacheable : n.isCacheable = true ↔
      (n.isMissing = false ∧ n.flags.isDecorated = false) ∧ n.slots.length ≤ 3 := by
    simp only [isCacheable, Bool.and_eq_true, Bool.not_eq_true', decide_eq_true_eq]
    rfl
  rw [hcacheable, hdecorated]
  exact ⟨fun h => ⟨⟨h.present, h.undecorated⟩, h.small⟩, fun h => ⟨h.1.1, h.1.2, h.2⟩⟩

namespace Arena

/-- `other` is `id`, or it is in a slot of the node of `id` or of a node further below. -/
inductive Below (a : Arena) : NodeId → NodeId → Prop
  | self (id : NodeId) : Below a id id
  | child {id child other : NodeId} {n : Node} (hget : a.get? id = some n)
      (hchild : child ∈ n.children) (hother : Below a child other) : Below a id other

/-- All ids in the tree of `id` are known and name clean nodes. -/
def CleanBelow (a : Arena) (id : NodeId) : Prop :=
  ∀ other, a.Below id other → ∃ n, a.get? other = some n ∧ n.Clean

variable {a b : Arena} {id : NodeId} {n : Node}

theorem cleanBelow_iff (hget : a.get? id = some n) :
    a.CleanBelow id ↔ n.Clean ∧ ∀ child ∈ n.children, a.CleanBelow child := by
  constructor
  · intro h
    obtain ⟨m, hm, hclean⟩ := h id (.self id)
    rw [hget] at hm
    cases hm
    exact ⟨hclean, fun child hchild other hother => h other (.child hget hchild hother)⟩
  · rintro ⟨hn, hbelow⟩ other hother
    cases hother with
    | self => exact ⟨n, hget, hn⟩
    | child hget' hchild hother =>
      rw [hget] at hget'
      cases hget'
      exact hbelow _ hchild other hother

theorem CleanBelow.exists_node (h : a.CleanBelow id) : ∃ n, a.get? id = some n ∧ n.Clean :=
  h id (.self id)

theorem CleanBelow.of_extends (h : a.CleanBelow id) (hab : a.Extends b) : b.CleanBelow id := by
  intro other hother
  induction hother with
  | self id =>
    obtain ⟨n, hget, hn⟩ := h.exists_node
    exact ⟨n, hab id n hget, hn⟩
  | child hget' hchild _ ih =>
    obtain ⟨n, hget, -⟩ := h.exists_node
    rw [hab _ n hget] at hget'
    cases hget'
    exact ih (((cleanBelow_iff hget).mp h).2 _ hchild)

end Arena

namespace Cache

variable {c : Cache} {arena : Arena}

theorem exists_slot_eq (h : c.sizeBits ≤ 30) (i : Fin (slotCount c.sizeBits)) :
    ∃ hash, c.slot hash = i := by
  obtain ⟨i, hi⟩ := i
  have hcount : slotCount c.sizeBits = 2 ^ c.sizeBits := Nat.one_shiftLeft _
  rw [hcount] at hi
  have hword : i < 2 ^ 32 := hi.trans_le (Nat.pow_le_pow_right two_pos (by omega))
  refine ⟨UInt32.ofNat i, Fin.ext ?_⟩
  change (UInt32.ofNat i).toNat &&& (slotCount c.sizeBits - 1) = i
  rw [UInt32.toNat_ofNat_of_lt' hword, hcount, Nat.and_two_pow_sub_one_eq_mod]
  exact Nat.mod_eq_of_lt hi

/-- The trees of all nodes that the cache holds are clean. -/
def Tidy (c : Cache) (arena : Arena) : Prop :=
  ∀ hash hash' id, c.entry? hash = some (hash', id) → arena.CleanBelow id

namespace Tidy

/-- A child that does not stand in the way of its parent is clean, if it may be held itself. -/
theorem cleanBelow_of_admitsChild (h : c.Tidy arena) {child : NodeId} {m : Node}
    (hget : arena.get? child = some m) (hm : m.isCacheable = true)
    (hadmits : c.admitsChild arena child = true) : arena.CleanBelow child := by
  simp only [admitsChild, hget, Bool.or_eq_true] at hadmits
  obtain hleaf | hheld := hadmits
  · rw [Arena.cleanBelow_iff hget]
    refine ⟨Node.clean_iff_isCacheable.mpr hm, ?_⟩
    intro below hbelow
    rw [Node.children, NodeKey.children, show m.key.slots = [] from List.isEmpty_iff.mp hleaf]
      at hbelow
    cases hbelow
  · exact h _ _ _ (beq_iff_eq.mp hheld)

/-- A node that is admitted over children that may be held is clean. -/
theorem cleanBelow_of_admits (h : c.Tidy arena) {id : NodeId} {n : Node} {hash : UInt32}
    (hget : arena.get? id = some n) (hadmits : c.admits arena id hash = true)
    (hchildren : ∀ child ∈ n.children, ∃ m, arena.get? child = some m ∧ m.isCacheable = true) :
    arena.CleanBelow id := by
  obtain ⟨n', hget', -, hcacheable, hall⟩ := admits_iff.mp hadmits
  rw [hget, Option.some.injEq] at hget'
  subst hget'
  refine (Arena.cleanBelow_iff hget).mpr ⟨Node.clean_iff_isCacheable.mpr hcacheable, ?_⟩
  intro child hchild
  obtain ⟨m, hm, hmcacheable⟩ := hchildren child hchild
  exact h.cleanBelow_of_admitsChild hm hmcacheable (hall child hchild)

end Tidy
end Cache

namespace Store

/-- The store is coherent and sound, and what its cache holds is clean. -/
structure Tidy (s : Store) : Prop where
  coherent : s.Coherent
  sound : s.Sound
  cache : s.cache.Tidy s.arena

theorem tidy_ofBits (instanceNumber sizeBits : ℕ) :
    (ofCache instanceNumber (.ofBits sizeBits)).Tidy where
  coherent := coherent_ofBits instanceNumber sizeBits
  sound := sound_ofBits instanceNumber sizeBits
  cache _ _ _ hentry := absurd hentry Cache.entry?_ofBits_ne

variable {s s' : Store}

theorem Tidy.act (hs : s.Tidy) {action : Action} {id? : Option NodeId}
    (haction : action.isOffer = false) (h : s.act action = .ok (id?, s')) : s'.Tidy := by
  have hchange := change_of_act h
  have hsound := hs.sound.act h
  refine ⟨hs.coherent.act haction h, hsound, ?_⟩
  have hbefore : s.cache.Tidy s'.arena := fun hash hash' id hentry =>
    (hs.cache hash hash' id hentry).of_extends hchange.extends
  intro hash hash' id hentry
  obtain hold | ⟨-, hadmits, ⟨rfl, -⟩ | ⟨key, -, hstore, hchildren⟩⟩ :=
    hchange.origin hsound.formed hentry
  · exact hbefore hash hash' id hold
  · cases haction
  · refine hbefore.cleanBelow_of_admits (Arena.get?_stored hstore) hadmits ?_
    intro child hchild
    rw [children_assemble] at hchild
    obtain ⟨m, hm, hcacheable⟩ := hchildren child hchild
    exact ⟨m, hchange.extends child m hm, hcacheable⟩

theorem Tidy.run (hs : s.Tidy) {actions : List Action}
    (hactions : ∀ action ∈ actions, action.isOffer = false) : (s.run actions).Tidy :=
  Run.last_preserves Tidy (fun _ action haction _ _ hs h => hs.act (hactions action haction) h) hs

/-- Only clean subtrees are held. Whatever ids the requests of a run name, every slot of the cache
that is not empty holds the hash and the id of a node that is no token, it is the slot of that hash,
and in the tree of the node all ids are known, and no node is missing, decorated or wide. -/
theorem only_clean_subtrees_are_held (instanceNumber : ℕ) {sizeBits : ℕ}
    (hsize : sizeBits ≤ Limits.maxSizeBits.toNat) {actions : List Action}
    (hactions : ∀ action ∈ actions, action.isOffer = false) :
    let s := (ofCache instanceNumber (.ofBits sizeBits)).run actions
    ∀ i, s.cache.slots.get i ≠ Cache.Word.empty → ∃ hash id n,
      Cache.Word.unpack? (s.cache.slots.get i) = some (hash, id) ∧
        s.arena.get? id = some n ∧ n.isToken = false ∧ n.keyHash = hash ∧
        i.val = hash.toNat &&& (s.cache.capacity - 1) ∧
        ∀ other, s.arena.Below id other → ∃ m, s.arena.get? other = some m ∧ m.Clean := by
  intro s i hi
  have htidy : s.Tidy := (tidy_ofBits instanceNumber sizeBits).run hactions
  have hbits : s.cache.sizeBits ≤ 30 := by
    rw [sizeBits_run]
    exact hsize
  obtain ⟨hash, rfl⟩ := Cache.exists_slot_eq hbits i
  obtain ⟨⟨hash', id⟩, hentry⟩ : ∃ entry, s.cache.entry? hash = some entry :=
    ⟨_, if_neg hi⟩
  obtain ⟨hslot, n, hget, hn, -⟩ := htidy.sound.entry hash hash' id hentry
  refine ⟨hash', id, n, hentry, hget, ?_, hn, hslot, htidy.cache hash hash' id hentry⟩
  obtain ⟨key, hassembled, -⟩ := htidy.coherent.cache hash hash' id hentry
  rw [hget, Option.some.injEq, assemble_eq] at hassembled
  rw [hassembled]
  rfl

/-- A node over a node over a wide one is refused, although a probe finds nothing wrong with it; a
node over small nodes is held. -/
theorem only_clean_subtrees_are_held_beside_wide :
    let actions : List Action :=
      [.request (.token ⟨10⟩ "a"), .request (.node ⟨20⟩ .present [some ⟨37⟩]),
        .request (.list [⟨37⟩, ⟨37⟩, ⟨37⟩, ⟨37⟩]), .request (.defaultNode ⟨22⟩ [some ⟨22⟩]),
        .request (.defaultNode ⟨23⟩ [some ⟨51⟩]), .request (.defaultNode ⟨24⟩ [some ⟨24⟩, none])]
    let s := (ofCache 1 (.ofBits 4)).run actions
    s.cache.counters.rejectedAdds = 1 ∧ 4 ≤ Limits.maxSizeBits.toNat ∧
      (∀ action ∈ actions, action.isOffer = false) ∧
      ∃ i, Cache.Word.unpack? (s.cache.slots.get i) = some (130637592, ⟨38⟩) ∧
        s.arena.CleanBelow ⟨38⟩ := by
  intro actions
  have hsize : 4 ≤ Limits.maxSizeBits.toNat := by decide
  have hactions : ∀ action ∈ actions, action.isOffer = false := by decide
  have hrejected : ((ofCache 1 (.ofBits 4)).run actions).cache.counters.rejectedAdds = 1 := by
    decide +kernel
  have hentry : ∃ i, Cache.Word.unpack? (((ofCache 1 (.ofBits 4)).run actions).cache.slots.get i) =
      some (130637592, ⟨38⟩) := ⟨⟨8, by decide +kernel⟩, by decide +kernel⟩
  have hall := only_clean_subtrees_are_held 1 hsize hactions
  -- The run is not looked into any more.
  generalize (ofCache 1 (.ofBits 4)).run actions = s at *
  obtain ⟨i, hentry⟩ := hentry
  have hheld : s.cache.slots.get i ≠ Cache.Word.empty := by
    intro hempty
    rw [hempty] at hentry
    cases hentry
  obtain ⟨hash, id, n, hunpack, -, -, -, -, hclean⟩ := hall i hheld
  cases hentry.symm.trans hunpack
  exact ⟨hrejected, hsize, hactions, i, hentry, hclean⟩

end Store
end GreenTree
