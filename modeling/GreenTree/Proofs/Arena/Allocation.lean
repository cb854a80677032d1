import GreenTree.Proofs.Arena.Handles
import GreenTree.Proofs.Outcome

/-!
# Ids that an arena has handed out

Nodes are stored one after the other, and whatever decides on the shard of each, the ids that the
arena knows are those it has handed out, each for one node. Storing one more node adds one pair of
an id and a node, as long as the shard has an index left.
-/

namespace GreenTree.Arena

open Outcome

/-- Stores nodes one after the other, each in the shard beside it. -/
def storeEach (a : Arena) :
    List (Fin Limits.shardCount × Node) → Except Fault (List NodeId × Arena)
  | [] => pure ([], a)
  | (shard, n) :: rest => do
    let (id, a') ← a.storeIn shard n
    let (ids, a'') ← a'.storeEach rest
    pure (id :: ids, a'')

/-- The arena knows the ids of these pairs, each for the node beside it, and no other id. -/
structure Knows (a : Arena) (given : List (NodeId × Node)) : Prop where
  distinct : (given.map Prod.fst).Nodup
  get?_iff : ∀ id n, a.get? id = some n ↔ (id, n) ∈ given
  size_eq : a.size = given.length

variable {a b : Arena} {n : Node} {id : NodeId} {shard : Fin Limits.shardCount}
  {ids : List NodeId} {given : List (NodeId × Node)}
  {storings : List (Fin Limits.shardCount × Node)}

theorem size_eq_sum (a : Arena) : a.size = ∑ shard, (a.shards.get shard).size := by
  have hfold : ∀ (rows : List (Array Node)) (n : ℕ),
      rows.foldl (fun n row => n + row.size) n = n + (rows.map Array.size).sum := by
    intro rows
    induction rows with
    | nil => simp
    | cons row rest ih =>
      intro n
      rw [List.foldl_cons, ih, List.map_cons, List.sum_cons, Nat.add_assoc]
  have hrows : a.shards.toList = List.ofFn a.shards.get := by
    apply List.ext_getElem (by simp)
    intro i _ _
    rw [List.getElem_ofFn, Vector.getElem_toList]
    rfl
  rw [size, hfold, Nat.zero_add, hrows, List.map_ofFn, List.sum_ofFn]
  rfl

theorem size_of_storeIn (h : a.storeIn shard n = .ok (id, b)) : b.size = a.size + 1 := by
  have hrow : ∀ other, (b.shards.get other).size =
      (a.shards.get other).size + if other = shard then 1 else 0 := by
    intro other
    rw [row_of_storeIn h]
    split_ifs with heq
    · rw [Array.size_push, heq]
    · rfl
  simp only [size_eq_sum, hrow, Finset.sum_add_distrib, Finset.sum_ite_eq', Finset.mem_univ,
    ↓reduceIte]

theorem knows_empty : empty.Knows [] where
  distinct := List.nodup_nil
  get?_iff id n := by simp [get?, empty, Vector.get]
  size_eq := by simp [size_eq_sum, empty, Vector.get]

theorem Knows.storeIn (h : a.Knows given) (hstore : a.storeIn shard n = .ok (id, b)) :
    b.Knows (given ++ [(id, n)]) := by
  have hfresh : id ∉ given.map Prod.fst := by
    intro hmem
    obtain ⟨⟨id, m⟩, hm, rfl⟩ := List.mem_map.mp hmem
    have hget := (h.get?_iff id m).mpr hm
    rw [get?_fresh_of_storeIn hstore] at hget
    cases hget
  constructor
  · rw [List.map_append, List.map_singleton, ← List.concat_eq_append]
    exact h.distinct.concat hfresh
  · intro other m
    rw [get?_of_storeIn hstore, List.mem_append, List.mem_singleton]
    by_cases heq : other = id
    · subst heq
      have hnot : (other, m) ∉ given := fun hm => hfresh (List.mem_map_of_mem (f := Prod.fst) hm)
      simp [hnot, eq_comm]
    · simp [heq, h.get?_iff]
  · rw [size_of_storeIn hstore, h.size_eq, List.length_append, List.length_singleton]

/-- Every sequence of storings adds the ids that it answers with. -/
theorem Knows.storeEach (h : a.Knows given) (hstore : a.storeEach storings = .ok (ids, b)) :
    ids.length = storings.length ∧ b.Knows (given ++ ids.zip (storings.map Prod.snd)) := by
  induction storings generalizing a given ids with
  | nil =>
    cases hstore
    exact ⟨rfl, by simpa using h⟩
  | cons storing rest ih =>
    obtain ⟨shard, n⟩ := storing
    rw [Arena.storeEach, bind_eq_ok_iff] at hstore
    obtain ⟨⟨id, a'⟩, hfirst, hstore⟩ := hstore
    rw [bind_eq_ok_iff] at hstore
    obtain ⟨⟨ids, b⟩, hrest, hstore⟩ := hstore
    cases hstore
    obtain ⟨hlength, hknows⟩ := ih (h.storeIn hfirst) hrest
    exact ⟨congrArg Nat.succ hlength, by simpa using hknows⟩

/-- While every shard has room for the nodes it is to take, all of them are stored. -/
theorem exists_storeEach (hroom : ∀ shard, (a.shards.get shard).size +
    (storings.map Prod.fst).count shard ≤ Limits.maxShardIndex + 1) :
    ∃ ids b, a.storeEach storings = .ok (ids, b) := by
  induction storings generalizing a with
  | nil => exact ⟨[], a, rfl⟩
  | cons storing rest ih =>
    obtain ⟨shard, n⟩ := storing
    simp only [List.map_cons, List.count_cons, beq_iff_eq] at hroom
    have hfree := hroom shard
    rw [if_pos rfl] at hfree
    obtain ⟨id, b, hstore⟩ : ∃ id b, a.storeIn shard n = .ok (id, b) :=
      ⟨_, _, storeIn_eq_ok_iff.mpr ⟨by omega, rfl, rfl⟩⟩
    obtain ⟨ids, c, hrest⟩ : ∃ ids c, b.storeEach rest = .ok (ids, c) := by
      apply ih
      intro other
      have hother := hroom other
      rw [row_of_storeIn hstore]
      by_cases heq : other = shard
      · rw [if_pos heq, Array.size_push, heq]
        omega
      · rw [if_neg heq]
        omega
    refine ⟨id :: ids, c, ?_⟩
    simp only [storeEach, hstore, hrest, ok_bind]
    rfl

/-- Storing a list of nodes is storing a first part of it and then the others. -/
theorem storeEach_append {earlier later : List (Fin Limits.shardCount × Node)}
    (h : a.storeEach (earlier ++ later) = .ok (ids, b)) :
    ∃ ids' ids'' c, a.storeEach earlier = .ok (ids', c) ∧ c.storeEach later = .ok (ids'', b) ∧
      ids = ids' ++ ids'' := by
  induction earlier generalizing a ids with
  | nil => exact ⟨[], ids, a, rfl, h, rfl⟩
  | cons storing rest ih =>
    obtain ⟨shard, n⟩ := storing
    rw [List.cons_append, storeEach, bind_eq_ok_iff] at h
    obtain ⟨⟨id, a'⟩, hstore, h⟩ := h
    rw [bind_eq_ok_iff] at h
    obtain ⟨⟨tail, b⟩, hrest, h⟩ := h
    cases h
    obtain ⟨ids', ids'', c, hearlier, hlater, rfl⟩ := ih hrest
    refine ⟨id :: ids', ids'', c, ?_, hlater, rfl⟩
    simp only [storeEach, hstore, hearlier, ok_bind]
    rfl

theorem Knows.contains_iff (h : a.Knows given) (id : NodeId) :
    a.contains id = true ↔ id ∈ given.map Prod.fst := by
  simp [contains, Option.isSome_iff_exists, h.get?_iff]

/-- The ids that an arena knows are those it has handed out. Whatever shard each node goes to, as
long as no shard runs out of indices, every node is stored under an id of its own, and that id means
this node for good. -/
theorem known_ids_are_those_handed_out (storings : List (Fin Limits.shardCount × Node))
    (hroom : ∀ shard, (storings.map Prod.fst).count shard ≤ Limits.maxShardIndex + 1) :
    ∃ ids a, empty.storeEach storings = .ok (ids, a) ∧ ids.length = storings.length ∧
      ids.Nodup ∧ .nowhere ∉ ids ∧
      (∀ id n, a.get? id = some n ↔ (id, n) ∈ ids.zip (storings.map Prod.snd)) ∧
      (∀ id, a.contains id = true ↔ id ∈ ids) ∧ a.size = storings.length ∧
      ∀ earlier, earlier <+: storings → ∃ ids' a', empty.storeEach earlier = .ok (ids', a') ∧
        ids' <+: ids ∧ ∀ id ∈ ids', a.get? id = a'.get? id := by
  obtain ⟨ids, a, hstore⟩ : ∃ ids a, empty.storeEach storings = .ok (ids, a) := by
    apply exists_storeEach
    intro shard
    simpa [empty, Vector.get] using hroom shard
  obtain ⟨hlength, hknows⟩ := knows_empty.storeEach hstore
  rw [List.nil_append] at hknows
  have hids : (ids.zip (storings.map Prod.snd)).map Prod.fst = ids :=
    List.map_fst_zip (by simp [hlength])
  have hcontains : ∀ id, a.contains id = true ↔ id ∈ ids := by
    intro id
    rw [hknows.contains_iff, hids]
  refine ⟨ids, a, hstore, hlength, hids ▸ hknows.distinct, ?_, hknows.get?_iff, hcontains, ?_, ?_⟩
  · intro hnowhere
    have hknown := (hcontains .nowhere).mpr hnowhere
    rw [contains, get?, if_pos rfl] at hknown
    cases hknown
  · rw [hknows.size_eq, List.length_zip, List.length_map, hlength, Nat.min_self]
  · rintro earlier ⟨later, rfl⟩
    obtain ⟨ids', ids'', a', hearlier, hlater, rfl⟩ := storeEach_append hstore
    obtain ⟨hlength', hknows'⟩ := knows_empty.storeEach hearlier
    obtain ⟨-, hknows''⟩ := hknows'.storeEach hlater
    refine ⟨ids', a', hearlier, List.prefix_append _ _, ?_⟩
    intro id hid
    have hknown : a'.contains id = true := by
      rw [hknows'.contains_iff, List.nil_append, List.map_fst_zip (by simp [hlength'])]
      exact hid
    obtain ⟨n, hn⟩ := Option.isSome_iff_exists.mp hknown
    rw [hn, hknows''.get?_iff]
    exact List.mem_append_left _ ((hknows'.get?_iff id n).mp hn)

/-- Two equal nodes go to the last shard and another one to the first. -/
theorem known_ids_are_those_handed_out_by_two_shards :
    let n := Node.interior ⟨⟨20⟩, .present, []⟩ 0
    let m := Node.interior ⟨⟨21⟩, .present, [some ⟨5⟩]⟩ 4294967295
    let storings : List (Fin Limits.shardCount × Node) := [(63, n), (0, m), (63, n)]
    (∀ shard, (storings.map Prod.fst).count shard ≤ Limits.maxShardIndex + 1) ∧
      ∃ a, empty.storeEach storings = .ok ([⟨63⟩, ⟨0⟩, ⟨127⟩], a) ∧ a.get? ⟨63⟩ = some n ∧
        a.get? ⟨127⟩ = some n ∧ a.contains ⟨64⟩ = false ∧ a.size = 3 := by
  intro n m storings
  have hroom : ∀ shard, (storings.map Prod.fst).count shard ≤ Limits.maxShardIndex + 1 := by
    decide +kernel
  obtain ⟨ids, a, hstore, -, -, -, hget, hcontains, hsize, -⟩ :=
    known_ids_are_those_handed_out storings hroom
  have hids : (empty.storeEach storings).map Prod.fst = .ok [⟨63⟩, ⟨0⟩, ⟨127⟩] := by
    decide +kernel
  rw [hstore] at hids
  obtain rfl : ids = [⟨63⟩, ⟨0⟩, ⟨127⟩] := Except.ok.inj hids
  refine ⟨hroom, a, hstore, (hget ⟨63⟩ n).mpr (by simp [storings]),
    (hget ⟨127⟩ n).mpr (by simp [storings]), ?_, hsize⟩
  rw [← Bool.not_eq_true, hcontains]
  decide

end GreenTree.Arena
