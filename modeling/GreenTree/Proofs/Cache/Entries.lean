import GreenTree.Cache.Basic
import GreenTree.Proofs.Arena.Handles

/-!
# Entries of a cache

Key hashes have 31 bits, so the word of an entry never is the word of an empty slot, and hash and id
can be read back from it. What a cache does is then told by the entries it has before and after.
-/

namespace GreenTree

theorem NodeKey.hash_lt (key : NodeKey) : key.hash.toNat < 2 ^ 31 := by
  rw [NodeKey.hash, UInt32.toNat_and]
  exact Nat.lt_succ_of_le Nat.and_le_right

namespace Cache

namespace Word

theorem toNat_pack (hash : UInt32) (id : NodeId) :
    (pack hash id).toNat = hash.toNat * 2 ^ 32 + id.val.toNat := by
  have hhash := hash.toNat_lt
  have hid := id.val.toNat_lt
  have hhigh : (hash.toUInt64 <<< 32).toNat = hash.toNat <<< 32 := by
    rw [UInt64.toNat_shiftLeft, UInt32.toNat_toUInt64]
    change hash.toNat <<< 32 % 2 ^ 64 = hash.toNat <<< 32
    rw [Nat.shiftLeft_eq]
    exact Nat.mod_eq_of_lt (by omega)
  rw [pack, UInt64.toNat_or, hhigh, UInt32.toNat_toUInt64, ← Nat.shiftLeft_add_eq_or_of_lt hid,
    Nat.shiftLeft_eq]

theorem pack_ne_empty {hash : UInt32} (h : hash.toNat < 2 ^ 31) (id : NodeId) :
    pack hash id ≠ empty := by
  intro heq
  have hid := id.val.toNat_lt
  have hval := congrArg UInt64.toNat heq
  rw [toNat_pack] at hval
  change _ = 18446744073709551615 at hval
  omega

theorem unpack?_pack {hash : UInt32} (h : hash.toNat < 2 ^ 31) (id : NodeId) :
    unpack? (pack hash id) = some (hash, id) := by
  have hid := id.val.toNat_lt
  have hhash := hash.toNat_lt
  have hhigh : (pack hash id >>> 32).toUInt32 = hash := by
    rw [← UInt32.toNat_inj, UInt64.toNat_toUInt32, UInt64.toNat_shiftRight, toNat_pack]
    change ((hash.toNat * 2 ^ 32 + id.val.toNat) >>> 32) % 2 ^ 32 = hash.toNat
    rw [Nat.shiftRight_eq_div_pow]
    omega
  have hlow : (pack hash id).toUInt32 = id.val := by
    rw [← UInt32.toNat_inj, UInt64.toNat_toUInt32, toNat_pack]
    omega
  rw [unpack?, if_neg (pack_ne_empty h id), hhigh, hlow]

end Word

variable (c : Cache) (arena : Arena)

@[simp] theorem entry?_clear (hash : UInt32) : c.clear.entry? hash = none := by
  have hword : c.clear.word hash = Word.empty := by
    simp [word, clear, Vector.get]
  unfold entry?
  rw [hword]
  rfl

@[simp] theorem entry?_ofBits (sizeBits : ℕ) (hash : UInt32) :
    entry? (ofBits sizeBits) hash = none :=
  entry?_clear (ofBits sizeBits) hash

theorem entry?_ofBits_ne {sizeBits : ℕ} {hash : UInt32} {entry : UInt32 × NodeId} :
    entry? (ofBits sizeBits) hash ≠ some entry := by
  rw [entry?_ofBits]
  exact Option.some_ne_none entry |>.symm

@[simp] theorem entry?_probe (key : NodeKey) (hash : UInt32) :
    entry? (c.probe arena key).2 hash = c.entry? hash := by
  unfold probe
  split
  · rfl
  · split <;> rfl

theorem sizeBits_probe (key : NodeKey) : (c.probe arena key).2.sizeBits = c.sizeBits := by
  unfold probe
  split
  · rfl
  · split <;> rfl

variable {c arena}

theorem lookup?_eq_some_iff {key : NodeKey} {hash : UInt32} {id : NodeId} :
    c.lookup? arena key hash = some id ↔
      c.entry? hash = some (hash, id) ∧ ∃ n, arena.get? id = some n ∧ n.key = key := by
  unfold lookup?
  rcases c.entry? hash with _ | ⟨hash', id'⟩
  · simp
  by_cases hhash : hash' = hash
  · subst hhash
    simp only [↓reduceIte, Option.some.injEq, Prod.mk.injEq, true_and]
    rcases hget : arena.get? id' with _ | n
    · simp only [reduceCtorEq, false_iff]
      rintro ⟨rfl, n, hn, -⟩
      rw [hget] at hn
      cases hn
    · simp only [Option.ite_none_right_eq_some, Option.some.injEq]
      constructor
      · rintro ⟨hkey, rfl⟩
        exact ⟨rfl, n, hget, hkey⟩
      · rintro ⟨rfl, n', hn', hkey⟩
        rw [hget] at hn'
        cases hn'
        exact ⟨hkey, rfl⟩
  · simp [hhash]

theorem isResident_iff {id : NodeId} : c.isResident arena id = true ↔
    ∃ n, arena.get? id = some n ∧ c.entry? n.keyHash = some (n.keyHash, id) := by
  unfold isResident
  rcases arena.get? id with _ | n
  · simp
  · simp [holds]

/-- Residency stays as it is while the entries do: no entry names a new node. -/
theorem isResident_of_extends {c' : Cache} {after : Arena} (hafter : arena.Extends after)
    (hentry : ∀ hash, c'.entry? hash = c.entry? hash)
    (hknown : ∀ hash hash' id, c.entry? hash = some (hash', id) → arena.contains id = true)
    (id : NodeId) : c'.isResident after id = c.isResident arena id := by
  rw [Bool.eq_iff_iff, isResident_iff, isResident_iff]
  simp only [hentry]
  constructor
  · rintro ⟨n, hn, hheld⟩
    obtain ⟨m, hm⟩ := Option.isSome_iff_exists.mp (hknown _ _ id hheld)
    rw [hafter id m hm, Option.some.injEq] at hn
    exact ⟨m, hm, hn ▸ hheld⟩
  · rintro ⟨n, hn, hheld⟩
    exact ⟨n, hafter id n hn, hheld⟩

theorem lookup?_of_hit {key : NodeKey} {id : NodeId} (h : (c.probe arena key).1 = .hit id) :
    ∃ effective, key.effective? arena = some effective ∧
      c.lookup? arena effective effective.hash = some id := by
  unfold probe at h
  rcases heffective : key.effective? arena with _ | effective
  · simp [heffective] at h
  rcases hlookup : c.lookup? arena effective effective.hash with _ | found
  · simp [heffective, hlookup] at h
  · simp only [heffective, hlookup, Probe.hit.injEq] at h
    exact ⟨effective, rfl, h ▸ hlookup⟩

theorem effective?_of_miss {key : NodeKey} {hash : UInt32}
    (h : (c.probe arena key).1 = .miss hash) :
    ∃ effective, key.effective? arena = some effective ∧ effective.hash = hash := by
  unfold probe at h
  rcases heffective : key.effective? arena with _ | effective
  · simp [heffective] at h
  rcases hlookup : c.lookup? arena effective effective.hash with _ | found
  · simp only [heffective, hlookup, Probe.miss.injEq] at h
    exact ⟨effective, rfl, h⟩
  · simp [heffective, hlookup] at h

theorem sizeBits_offer (c : Cache) (arena : Arena) (id : NodeId) (hash : UInt32) :
    (c.offer arena id hash).2.sizeBits = c.sizeBits := by
  unfold offer
  split <;> rfl

@[simp] theorem offer_fst (c : Cache) (arena : Arena) (id : NodeId) (hash : UInt32) :
    (c.offer arena id hash).1 = c.admits arena id hash := by
  unfold offer
  split <;> simp_all

theorem slot_eq_iff {hash other : UInt32} :
    c.slot hash = c.slot other ↔ hash.toNat ≡ other.toNat [MOD c.capacity] := by
  have hslot : ∀ word : UInt32, (c.slot word).val = word.toNat % c.capacity := by
    intro word
    have hcapacity : c.capacity = 2 ^ c.sizeBits := Nat.one_shiftLeft _
    rw [hcapacity, ← Nat.and_two_pow_sub_one_eq_mod, ← hcapacity]
    rfl
  rw [Fin.ext_iff, hslot, hslot]
  rfl

theorem entry?_of_slot_eq {hash other : UInt32} (h : c.slot hash = c.slot other) :
    c.entry? hash = c.entry? other := by
  unfold entry? word
  rw [h]

theorem entry?_eq_none_iff {hash : UInt32} : c.entry? hash = none ↔ c.word hash = Word.empty := by
  unfold entry? Word.unpack?
  split_ifs <;> simp_all

theorem word_offer_of_admits {id : NodeId} {hash : UInt32} (h : c.admits arena id hash = true)
    (other : UInt32) : word (c.offer arena id hash).2 other =
      if c.slot other = c.slot hash then Word.pack hash id else c.word other := by
  rw [offer, if_pos h]
  change (c.slots.set (c.slot hash).val (Word.pack hash id)
    (c.slot hash).isLt)[(c.slot other).val] = _
  rw [Vector.getElem_set]
  by_cases heq : c.slot other = c.slot hash
  · rw [if_pos (congrArg Fin.val heq.symm), if_pos heq]
  · rw [if_neg (fun hval => heq (Fin.ext hval.symm)), if_neg heq]
    rfl

theorem entry?_offer_of_admits {id : NodeId} {hash : UInt32} (h : c.admits arena id hash = true)
    (hhash : hash.toNat < 2 ^ 31) (other : UInt32) :
    entry? (c.offer arena id hash).2 other =
      if c.slot other = c.slot hash then some (hash, id) else c.entry? other := by
  unfold entry?
  rw [word_offer_of_admits h]
  split_ifs
  · exact Word.unpack?_pack hhash id
  · rfl

theorem entry?_offer_of_not_admits {id : NodeId} {hash : UInt32}
    (h : ¬ c.admits arena id hash = true) (other : UInt32) :
    entry? (c.offer arena id hash).2 other = c.entry? other := by
  rw [offer, if_neg h]
  rfl

theorem admits_iff {id : NodeId} {hash : UInt32} : c.admits arena id hash = true ↔
    ∃ n, arena.get? id = some n ∧ n.keyHash = hash ∧ n.isCacheable = true ∧
      ∀ child ∈ n.children, c.admitsChild arena child = true := by
  unfold admits
  rcases arena.get? id with _ | n
  · simp
  · simp [and_assoc]

/-- The child does not keep its parent out of the cache: it has no slots or is held itself. -/
def Supports (c : Cache) (arena : Arena) (child : NodeId) : Prop :=
  ∃ n, arena.get? child = some n ∧ (n.slots = [] ∨ c.isResident arena child = true)

theorem admitsChild_iff {child : NodeId} :
    c.admitsChild arena child = true ↔ c.Supports arena child := by
  rw [admitsChild, Supports, isResident]
  rcases arena.get? child with _ | n <;> simp

/-- Where nodes have the hash of their key, nothing is admitted under a longer hash. -/
theorem hash_lt_of_admits (harena : ∀ id n, arena.get? id = some n → n.keyHash = n.key.hash)
    {id : NodeId} {hash : UInt32} (h : c.admits arena id hash = true) : hash.toNat < 2 ^ 31 := by
  obtain ⟨n, hget, rfl, -⟩ := admits_iff.mp h
  rw [harena id n hget]
  exact n.key.hash_lt

/-- An accepted node is resident, and what else was resident stays so if it has another slot. -/
theorem isResident_offer_iff {id other : NodeId} {hash : UInt32}
    (h : c.admits arena id hash = true) (hhash : hash.toNat < 2 ^ 31) :
    (c.offer arena id hash).2.isResident arena other = true ↔
      other = id ∨ c.isResident arena other = true ∧
        ∀ n, arena.get? other = some n → c.slot n.keyHash ≠ c.slot hash := by
  obtain ⟨m, hm, hkey, -⟩ := admits_iff.mp h
  simp only [isResident_iff, entry?_offer_of_admits h hhash]
  constructor
  · rintro ⟨n, hget, hentry⟩
    split_ifs at hentry with hslot
    · cases hentry
      exact .inl rfl
    · refine .inr ⟨⟨n, hget, hentry⟩, ?_⟩
      intro n' hget'
      rw [hget, Option.some.injEq] at hget'
      exact hget' ▸ hslot
  · rintro (rfl | ⟨⟨n, hget, hentry⟩, hslot⟩)
    · exact ⟨m, hm, by rw [hkey, if_pos rfl]⟩
    · exact ⟨n, hget, by rw [if_neg (hslot n hget), hentry]⟩

/-- An entry after an offer has just been admitted, to its slot, or it was there before. -/
theorem admitted_or_entry?_of_offer {id id' : NodeId} {hash hash' other : UInt32}
    (hhash : c.admits arena id hash = true → hash.toNat < 2 ^ 31)
    (h : entry? (c.offer arena id hash).2 other = some (hash', id')) :
    (id' = id ∧ hash' = hash ∧ c.slot other = c.slot hash' ∧ c.admits arena id' hash' = true) ∨
      c.entry? other = some (hash', id') := by
  by_cases hadmits : c.admits arena id hash = true
  · rw [entry?_offer_of_admits hadmits (hhash hadmits)] at h
    split_ifs at h with hslot
    · cases h
      exact .inl ⟨rfl, rfl, hslot, hadmits⟩
    · exact .inr h
  · rw [entry?_offer_of_not_admits hadmits] at h
    exact .inr h

end Cache
end GreenTree
