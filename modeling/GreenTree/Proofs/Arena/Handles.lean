import GreenTree.Arena
import Mathlib.Tactic

/-!
# Ids of stored nodes

Below the index limit the shard and the index can be read back from an id, and together they are the
id. Storing a node therefore makes one new id known, which was unknown before, and changes the
meaning of no other.
-/

namespace GreenTree

namespace NodeId

theorem shard_val (id : NodeId) : id.shard.val = id.val.toNat % 64 := by
  change (id.val &&& 63).toNat = _
  rw [UInt32.toNat_and]
  exact Nat.and_two_pow_sub_one_eq_mod id.val.toNat 6

theorem index_eq (id : NodeId) : id.index = id.val.toNat / 64 := by
  change (id.val >>> 6).toNat = _
  rw [UInt32.toNat_shiftRight]
  exact Nat.shiftRight_eq_div_pow id.val.toNat 6

theorem eq_of_shard_of_index {id other : NodeId} (hs : id.shard = other.shard)
    (hi : id.index = other.index) : id = other := by
  have hs' := congrArg Fin.val hs
  rw [shard_val, shard_val] at hs'
  rw [index_eq, index_eq] at hi
  have hval : id.val.toNat = other.val.toNat := by omega
  obtain ⟨val⟩ := id
  obtain ⟨val'⟩ := other
  exact congrArg NodeId.mk (UInt32.toNat_inj.mp hval)

variable {index : ℕ} (shard : Fin Limits.shardCount)

theorem toNat_pack (h : index ≤ Limits.maxShardIndex) :
    (pack index shard).val.toNat = index * 64 + shard.val := by
  change index ≤ 67108862 at h
  have hshard : shard.val < 64 := shard.isLt
  have hlow : (UInt32.ofNat shard.val &&& 63).toNat = shard.val := by
    rw [UInt32.toNat_and, UInt32.toNat_ofNat_of_lt' (hshard.trans (by decide))]
    exact (Nat.and_two_pow_sub_one_eq_mod shard.val 6).trans (Nat.mod_eq_of_lt hshard)
  have hhigh : (UInt32.ofNat index <<< 6).toNat = index <<< 6 := by
    rw [UInt32.toNat_shiftLeft, UInt32.toNat_ofNat_of_lt' (h.trans_lt (by decide))]
    change index <<< 6 % 2 ^ 32 = index <<< 6
    rw [Nat.shiftLeft_eq]
    exact Nat.mod_eq_of_lt (by omega)
  change (UInt32.ofNat index <<< 6 ||| (UInt32.ofNat shard.val &&& 63)).toNat = _
  rw [UInt32.toNat_or, hlow, hhigh, ← Nat.shiftLeft_add_eq_or_of_lt hshard, Nat.shiftLeft_eq]

theorem shard_pack (h : index ≤ Limits.maxShardIndex) : (pack index shard).shard = shard := by
  have hshard : shard.val < 64 := shard.isLt
  apply Fin.ext
  rw [shard_val, toNat_pack shard h]
  omega

theorem index_pack (h : index ≤ Limits.maxShardIndex) : (pack index shard).index = index := by
  have hshard : shard.val < 64 := shard.isLt
  rw [index_eq, toNat_pack shard h]
  omega

theorem pack_ne_nowhere (h : index ≤ Limits.maxShardIndex) : pack index shard ≠ nowhere := by
  have hshard : shard.val < 64 := shard.isLt
  intro heq
  have hval := congrArg (fun id => id.val.toNat) heq
  simp only [toNat_pack shard h] at hval
  change index ≤ 67108862 at h
  change index * 64 + shard.val = 4294967295 at hval
  omega

end NodeId

namespace Arena

/-- Every id that `a` knows means the same in `b`. -/
def Extends (a b : Arena) : Prop := ∀ id n, a.get? id = some n → b.get? id = some n

theorem Extends.refl (a : Arena) : a.Extends a := fun _ _ h => h

theorem Extends.trans {a b c : Arena} (hab : a.Extends b) (hbc : b.Extends c) : a.Extends c := by
  intro id n h
  exact hbc id n (hab id n h)

variable {a b : Arena} {n : Node} {id : NodeId}

theorem Extends.known (h : a.Extends b) {ids : List NodeId}
    (hids : ∀ id ∈ ids, ∃ n, a.get? id = some n) : ∀ id ∈ ids, ∃ n, b.get? id = some n := by
  intro id hid
  obtain ⟨n, hn⟩ := hids id hid
  exact ⟨n, h id n hn⟩

theorem storeIn_eq_ok_iff {shard : Fin Limits.shardCount} :
    a.storeIn shard n = .ok (id, b) ↔
      (a.shards.get shard).size ≤ Limits.maxShardIndex ∧
        id = .pack (a.shards.get shard).size shard ∧
        b = ⟨a.shards.set shard.val ((a.shards.get shard).push n) shard.isLt⟩ := by
  simp only [storeIn]
  split_ifs with h
  · simp only [Except.ok.injEq, Prod.mk.injEq, h, true_and]
    exact and_congr eq_comm eq_comm
  · simp [h]

theorem row_of_storeIn {shard : Fin Limits.shardCount} (h : a.storeIn shard n = .ok (id, b))
    (other : Fin Limits.shardCount) : b.shards.get other =
      if other = shard then (a.shards.get shard).push n else a.shards.get other := by
  obtain ⟨-, -, rfl⟩ := storeIn_eq_ok_iff.mp h
  change (a.shards.set shard.val _ shard.isLt)[other.val] = _
  rw [Vector.getElem_set]
  by_cases heq : other = shard
  · rw [if_pos (congrArg Fin.val heq.symm), if_pos heq]
  · rw [if_neg (fun hval => heq (Fin.ext hval.symm)), if_neg heq]
    rfl

theorem get?_of_storeIn {shard : Fin Limits.shardCount} (h : a.storeIn shard n = .ok (id, b))
    (other : NodeId) : b.get? other = if other = id then some n else a.get? other := by
  obtain ⟨hroom, hid, -⟩ := storeIn_eq_ok_iff.mp h
  have hshard : id.shard = shard := by rw [hid, NodeId.shard_pack shard hroom]
  have hindex : id.index = (a.shards.get shard).size := by rw [hid, NodeId.index_pack shard hroom]
  have hsome : id ≠ .nowhere := by rw [hid]; exact NodeId.pack_ne_nowhere shard hroom
  rw [get?, get?, row_of_storeIn h]
  by_cases heq : other = id
  · rw [heq, if_neg hsome, if_pos hshard, if_pos rfl, hindex, Array.getElem?_push_size]
  · rw [if_neg heq]
    split_ifs with hnowhere hother
    · rfl
    · have hne : other.index ≠ (a.shards.get shard).size := fun hi =>
        heq (NodeId.eq_of_shard_of_index (hother.trans hshard.symm) (hi.trans hindex.symm))
      rw [Array.getElem?_push, if_neg hne, hother]
    · rfl

theorem get?_fresh_of_storeIn {shard : Fin Limits.shardCount}
    (h : a.storeIn shard n = .ok (id, b)) : a.get? id = none := by
  obtain ⟨hroom, rfl, -⟩ := storeIn_eq_ok_iff.mp h
  simp [get?, NodeId.shard_pack shard hroom, NodeId.index_pack shard hroom]

theorem ne_of_store (h : a.store n = .ok (id, b)) {other : NodeId} {m : Node}
    (hm : a.get? other = some m) : other ≠ id := by
  rintro rfl
  rw [get?_fresh_of_storeIn h] at hm
  cases hm

theorem extends_of_store (h : a.store n = .ok (id, b)) : a.Extends b := by
  intro other m hm
  rw [get?_of_storeIn h, if_neg (ne_of_store h hm), hm]

/-- A node of the arena is the one that was stored or has been there before. -/
theorem new_or_known_of_store (h : a.store n = .ok (id, b)) {other : NodeId} {m : Node}
    (hm : b.get? other = some m) : other = id ∧ m = n ∨ a.get? other = some m := by
  rw [get?_of_storeIn h] at hm
  split_ifs at hm with heq
  · exact .inl ⟨heq, (Option.some.inj hm).symm⟩
  · exact .inr hm

theorem get?_stored (h : a.store n = .ok (id, b)) : b.get? id = some n := by
  rw [get?_of_storeIn h, if_pos rfl]

/-- No shard has more than `count` nodes. -/
def ShardsWithin (a : Arena) (count : ℕ) : Prop :=
  ∀ shard, (a.shards.get shard).size ≤ count

variable {count : ℕ}

theorem shardsWithin_empty : empty.ShardsWithin 0 := by
  intro shard
  simp [empty, Vector.get]

theorem ShardsWithin.succ (h : a.ShardsWithin count) : a.ShardsWithin (count + 1) := by
  intro shard
  exact (h shard).trans (Nat.le_succ count)

theorem ShardsWithin.of_store (ha : a.ShardsWithin count) (h : a.store n = .ok (id, b)) :
    b.ShardsWithin (count + 1) := by
  intro shard
  rw [row_of_storeIn h]
  split_ifs
  · rw [Array.size_push]
    exact Nat.succ_le_succ (ha _)
  · exact ha.succ shard

theorem ShardsWithin.exists_store (ha : a.ShardsWithin count) (h : count ≤ Limits.maxShardIndex)
    (n : Node) : ∃ id b, a.store n = .ok (id, b) := by
  refine ⟨_, _, storeIn_eq_ok_iff.mpr ⟨?_, rfl, rfl⟩⟩
  exact (ha _).trans h

end Arena
end GreenTree
