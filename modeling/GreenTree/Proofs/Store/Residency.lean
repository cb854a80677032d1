import GreenTree.Proofs.Store.Cleanliness

/-!
# Reuse and residency

An id that is known and not resident never becomes resident again, since a store offers a node only
when it has just built it. And a resident node is found by whoever asks for its key, since what is
held is clean and so can be looked for. A node is therefore reused exactly as long as it stays
resident.
-/

namespace GreenTree
namespace Store

variable {s s' : Store} {id : NodeId} {n : Node}

/-- What one action leaves resident was resident before, unless the action made it. -/
theorem isResident_of_act (hs : s.Sound) (hget : s.arena.get? id = some n) {action : Action}
    {id? : Option NodeId} (haction : action.isOffer = false) (h : s.act action = .ok (id?, s'))
    (hresident : s'.cache.isResident s'.arena id = true) :
    s.cache.isResident s.arena id = true := by
  have hchange := change_of_act h
  obtain ⟨m, hm, hentry⟩ := Cache.isResident_iff.mp hresident
  rw [hchange.extends id n hget, Option.some.injEq] at hm
  subst hm
  refine Cache.isResident_iff.mpr ⟨n, hget, ?_⟩
  obtain hold | ⟨-, -, ⟨rfl, -⟩ | ⟨key, -, hstore, -⟩⟩ :=
    hchange.origin (hs.formed.change hchange) hentry
  · exact hold
  · cases haction
  · rw [Arena.get?_fresh_of_storeIn hstore] at hget
    cases hget

/-- What a run leaves resident was resident before, unless the run made it. -/
theorem isResident_of_run (hs : s.Sound) (hget : s.arena.get? id = some n) {actions : List Action}
    (hactions : ∀ action ∈ actions, action.isOffer = false)
    (hresident : (s.run actions).cache.isResident (s.run actions).arena id = true) :
    s.cache.isResident s.arena id = true := by
  refine (Run.last_preserves (fun t : Store => t.Sound ∧ t.arena.get? id = some n ∧
    (t.cache.isResident t.arena id = true → s.cache.isResident s.arena id = true)) ?_
    ⟨hs, hget, fun h => h⟩).2.2 hresident
  rintro t action haction id? t' ⟨ht, hget, hbefore⟩ hact
  refine ⟨ht.act hact, (change_of_act hact).extends id n hget, ?_⟩
  exact fun hafter => hbefore (isResident_of_act ht hget (hactions action haction) hact hafter)

variable {kind : Kind} {flags : Flags} {slots : List (Option NodeId)}

/-- A node request that answers with a known id has found it in the cache. -/
theorem isResident_of_node (hs : s.Tidy) (hget : s.arena.get? id = some n)
    (h : s.node kind flags slots = .ok (id, s')) :
    s.cache.isResident s.arena id = true ∧
      n.key = s.arena.effectiveKey ⟨kind, flags.undecorated, slots⟩ := by
  obtain ⟨effective, heffective, hfound, -⟩ | ⟨arena, hstore, -⟩ := node_cases h
  · obtain ⟨hentry, m, hm, hkey⟩ := Cache.lookup?_eq_some_iff.mp hfound
    rw [hget, Option.some.injEq] at hm
    subst hm
    have hhash : n.keyHash = effective.hash := by rw [(hs.sound.formed id n hget).keyHash, hkey]
    refine ⟨Cache.isResident_iff.mpr ⟨n, hget, hhash ▸ hentry⟩, ?_⟩
    rw [hkey, (effective?_eq_some heffective).1, key_assemble]
  · rw [Arena.get?_fresh_of_storeIn hstore] at hget
    cases hget

/-- A node request for the key of a resident node answers with it, and only counters change. -/
theorem node_of_isResident (hs : s.Tidy) (hget : s.arena.get? id = some n)
    (hresident : s.cache.isResident s.arena id = true)
    (hkey : n.key = s.arena.effectiveKey ⟨kind, flags.undecorated, slots⟩) :
    s.node kind flags slots = .ok (id,
      { s with cache := (s.cache.probe s.arena ⟨kind, flags.undecorated, slots⟩).2 }) := by
  obtain ⟨m, hm, hentry⟩ := Cache.isResident_iff.mp hresident
  rw [hget, Option.some.injEq] at hm
  subst hm
  obtain ⟨hclean, hbelow⟩ := (Arena.cleanBelow_iff hget).mp (hs.cache _ _ id hentry)
  have hchildren : n.children = NodeKey.children ⟨kind, flags.undecorated, slots⟩ := by
    rw [Node.children, hkey]
    rfl
  have heffective := effective?_of_isCacheable (Node.clean_iff_isCacheable.mp hclean) hkey (by
    intro child hchild
    obtain ⟨m, hm, hmclean⟩ := (hbelow child (hchildren ▸ hchild)).exists_node
    exact ⟨m, hm, Node.clean_iff_isCacheable.mp hmclean⟩)
  have hlookup : s.cache.lookup? s.arena n.key n.key.hash = some id := by
    rw [← (hs.sound.formed id n hget).keyHash]
    exact Cache.lookup?_eq_some_iff.mpr ⟨hentry, n, hget, rfl⟩
  have hanswer : (s.cache.probe s.arena ⟨kind, flags.undecorated, slots⟩).1 = .hit id := by
    simp only [Cache.probe, heffective, hlookup]
  simp only [node, hanswer]
  rfl

/-- A later request answers with the id of an earlier one if and only if both ask for one key and
the id was resident in every state in between. An id that is known and not resident is never
answered with again. -/
theorem node_reused_iff_resident (instanceNumber sizeBits : ℕ) {before between : List Action}
    (hbefore : ∀ action ∈ before, action.isOffer = false)
    (hbetween : ∀ action ∈ between, action.isOffer = false)
    {earlier later : Request NodeId} {key key' : NodeKey} (hkey : earlier.key? = some key)
    (hkey' : later.key? = some key') {id id' : NodeId} {t v : Store}
    (hearlier : ((ofCache instanceNumber (.ofBits sizeBits)).run before).answer earlier =
      .ok (id, t))
    (hlater : (t.run between).answer later = .ok (id', v)) :
    let s := (ofCache instanceNumber (.ofBits sizeBits)).run before
    let u := t.run between
    (id' = id ↔ u.arena.effectiveKey key' = s.arena.effectiveKey key ∧
        ∀ part, part <+: between → (t.run part).cache.isResident (t.run part).arena id = true) ∧
      ∀ part, part <+: between → ∀ old n, (t.run part).arena.get? old = some n →
        (t.run part).cache.isResident (t.run part).arena old = false → id' ≠ old := by
  intro s u
  have hs : s.Tidy := (tidy_ofBits instanceNumber sizeBits).run hbefore
  have ht : t.Tidy := hs.act rfl (act_of_answer hearlier)
  have hu : u.Tidy := ht.run hbetween
  obtain ⟨kind, flags, slots, rfl, hnode⟩ := Request.exists_node_of_key? hkey
  obtain ⟨kind', flags', slots', rfl, hnode'⟩ := Request.exists_node_of_key? hkey'
  rw [hnode] at hearlier
  rw [hnode'] at hlater
  obtain ⟨n, hget, hn⟩ : ∃ n, t.arena.get? id = some n ∧
      n.key = s.arena.effectiveKey ⟨kind, flags.undecorated, slots⟩ :=
    ⟨_, (node_serves hs.coherent hearlier).get?, key_assemble ..⟩
  -- Whatever the later request answers with was resident as long as it was known.
  have hstays : ∀ part, part <+: between → ∀ m, (t.run part).arena.get? id' = some m →
      (t.run part).cache.isResident (t.run part).arena id' = true := by
    intro part hpart m hm
    obtain ⟨rest, hrest, hrun⟩ : ∃ rest, (∀ action ∈ rest, action ∈ between) ∧
        t.run between = (t.run part).run rest := Run.exists_last_of_isPrefix hpart t
    have hm' : (t.run between).arena.get? id' = some m := by
      rw [hrun]
      exact extends_run _ rest id' m hm
    have hresident := (isResident_of_node hu hm' hlater).1
    change (t.run between).cache.isResident (t.run between).arena id' = true at hresident
    rw [hrun] at hresident
    exact isResident_of_run (ht.sound.run part) hm (fun a ha => hbetween a (hrest a ha)) hresident
  refine ⟨⟨?_, ?_⟩, ?_⟩
  · rintro rfl
    refine ⟨?_, fun part hpart => hstays part hpart n (extends_run t part id' n hget)⟩
    rw [← (isResident_of_node hu (extends_run t between id' n hget) hlater).2, hn]
  · rintro ⟨hsame, hresident⟩
    have hreused := node_of_isResident hu (extends_run t between id n hget)
      (hresident between List.prefix_rfl) (hn.trans hsame.symm)
    change u.node kind' flags' slots' = _ at hlater
    rw [hreused] at hlater
    cases hlater
    rfl
  · rintro part hpart _ n hold hgone rfl
    rw [hstays part hpart n hold] at hgone
    cases hgone

/-- A node is reused until a colliding one pushes it out, and then it does not come back. -/
theorem node_reused_iff_resident_until_evicted :
    let s := (ofCache 1 (.ofBits 4)).run [.request (.token ⟨10⟩ "a")]
    let asked : Request NodeId := .node ⟨20⟩ .present [some ⟨37⟩]
    let again : Request NodeId := .defaultNode ⟨20⟩ [some ⟨37⟩]
    let other : Action := .request (.defaultNode ⟨21⟩ [some ⟨37⟩])
    let colliding : Action := .request (.defaultNode ⟨36⟩ [some ⟨37⟩])
    ∃ t v w id', s.answer asked = .ok (⟨24⟩, t) ∧
      (t.run [other]).answer again = .ok (⟨24⟩, v) ∧
      (∀ part, part <+: [other] → (t.run part).cache.isResident (t.run part).arena ⟨24⟩ = true) ∧
      (t.run [other, colliding]).answer again = .ok (id', w) ∧ id' ≠ ⟨24⟩ := by
  intro s asked again other colliding
  obtain ⟨⟨id, t⟩, hasked, htest⟩ := Outcome.exists_of_passes
    (show Outcome.passes (s.answer asked) (fun answer => answer.1 == ⟨24⟩ &&
      Outcome.passes ((answer.2.run [other]).answer again) (·.1 == ⟨24⟩) &&
      Outcome.passes ((answer.2.run [other, colliding]).answer again) (fun _ =>
        let u := answer.2.run [other, colliding]
        u.arena.contains ⟨24⟩ && !u.cache.isResident u.arena ⟨24⟩)) = true by decide +kernel)
  simp only [Bool.and_eq_true, beq_iff_eq] at htest
  obtain ⟨⟨rfl, hkept⟩, hlost⟩ := htest
  obtain ⟨⟨kept, v⟩, hkept, hsame⟩ := Outcome.exists_of_passes hkept
  obtain ⟨⟨id', w⟩, hlost, hgone⟩ := Outcome.exists_of_passes hlost
  simp only [Bool.and_eq_true, Bool.not_eq_true', Arena.contains] at hgone
  obtain ⟨n, hget⟩ := Option.isSome_iff_exists.mp hgone.1
  obtain rfl : kept = ⟨24⟩ := beq_iff_eq.mp hsame
  have hreused := node_reused_iff_resident 1 4 (by decide) (by decide) rfl rfl hasked hkept
  have hfresh := node_reused_iff_resident 1 4 (by decide) (by decide) rfl rfl hasked hlost
  exact ⟨t, v, w, id', hasked, hkept, (hreused.1.mp rfl).2, hlost,
    hfresh.2 _ List.prefix_rfl _ n hget hgone.2⟩

end Store
end GreenTree
