import GreenTree.Proofs.Arena.Handles
import GreenTree.Proofs.Cache.Entries
import GreenTree.Proofs.Run

/-!
# Residency as history

Whether an id is resident can be told from what was done so far: it is if it was accepted, and since
then the cache was not emptied and no other node was accepted to the same slot. One step makes an id
resident or leaves it so in exactly these cases, and over a run the last step that matters decides.
-/

namespace GreenTree

namespace Cache

/-- What is done with an arena and a cache over it: a node is stored that has the hash of its key,
or the cache is called. -/
abbrev Use := Action { n : Node // n.keyHash = n.key.hash } Call

/-- An arena and a cache for its nodes. -/
structure Site where
  arena : Arena
  cache : Cache

namespace Site

def store (s : Site) (n : { n : Node // n.keyHash = n.key.hash }) :
    Except Fault (NodeId × Site) := do
  let (id, arena) ← s.arena.store n.val
  pure (id, { s with arena })

def serve (s : Site) (call : Call) : Site := { s with cache := s.cache.serve s.arena call }

def perform : Site → Use → Except Fault (Option NodeId × Site) := Action.perform store serve

/-- The steps of all uses, or of those before the first that is stopped by a fault, and the last
state. -/
def trace (s : Site) (uses : List Use) : List (Step Site Use (Option NodeId)) × Site :=
  (Run.steps perform s uses, Run.last perform s uses)

def isResident (s : Site) (id : NodeId) : Bool := s.cache.isResident s.arena id

end Site
end Cache

open Cache

namespace Step

/-- The step offers the node, and the offer is accepted. -/
def Accepts (r : Step Site Use (Option NodeId)) (id : NodeId) : Prop :=
  ∃ hash, r.action = .onCache (.offer id hash) ∧
    (r.before.cache.offer r.before.arena id hash).1 = true

/-- The step neither empties the cache nor accepts another node whose hash is congruent to that of
the node of `id`, where `site` tells of these nodes. -/
def Spares (r : Step Site Use (Option NodeId)) (site : Site) (id : NodeId) : Prop :=
  r.action ≠ .onCache .clear ∧ ∀ other n m, r.Accepts other → site.arena.get? id = some n →
    site.arena.get? other = some m →
      m.keyHash.toNat ≡ n.keyHash.toNat [MOD site.cache.capacity] → other = id

variable {r : Step Site Use (Option NodeId)} {s s' : Site} {id other : NodeId}
  {id? : Option NodeId} {hash : UInt32}

/-- An offer is accepted exactly if the node is known, has the hash that it is offered under and may
be held, and no child stands in its way. -/
theorem accepts_iff : r.Accepts id ↔ ∃ n, r.action = .onCache (.offer id n.keyHash) ∧
    r.before.arena.get? id = some n ∧ n.isCacheable = true ∧
      ∀ child ∈ n.children, r.before.cache.Supports r.before.arena child := by
  simp only [Accepts, offer_fst, admits_iff, admitsChild_iff]
  constructor
  · rintro ⟨hash, haction, n, hget, rfl, h⟩
    exact ⟨n, haction, hget, h⟩
  · rintro ⟨n, haction, hget, h⟩
    exact ⟨n.keyHash, haction, n, hget, rfl, h⟩

theorem accepts_offer_iff : Accepts ⟨s, .onCache (.offer other hash), id?, s'⟩ id ↔
    id = other ∧ s.cache.admits s.arena other hash = true := by
  simp only [Accepts, Action.onCache.injEq, Call.offer.injEq, offer_fst]
  constructor
  · rintro ⟨hash, ⟨rfl, rfl⟩, h⟩
    exact ⟨rfl, h⟩
  · rintro ⟨rfl, h⟩
    exact ⟨hash, ⟨rfl, rfl⟩, h⟩

/-- An accepted offer spares the nodes with other slots. -/
theorem spares_offer_iff {last : Site} {n m : Node}
    (hadmits : s.cache.admits s.arena other m.keyHash = true)
    (hcapacity : last.cache.capacity = s.cache.capacity) (hn : last.arena.get? id = some n)
    (hm : last.arena.get? other = some m) :
    Spares ⟨s, .onCache (.offer other m.keyHash), id?, s'⟩ last id ↔
      (s.cache.slot n.keyHash = s.cache.slot m.keyHash → id = other) := by
  rw [slot_eq_iff, ← hcapacity]
  constructor
  · rintro ⟨-, hspares⟩ hslot
    exact (hspares other n m (accepts_offer_iff.mpr ⟨rfl, hadmits⟩) hn hm hslot.symm).symm
  · intro hslot
    refine ⟨by simp, ?_⟩
    intro other' n' m' haccepts hn' hm' hmod
    obtain ⟨rfl, -⟩ := accepts_offer_iff.mp haccepts
    rw [hn, Option.some.injEq] at hn'
    rw [hm, Option.some.injEq] at hm'
    subst hn' hm'
    exact (hslot hmod.symm).symm

end Step

namespace Cache.Site

/-- Nodes have the hash of their key, and every entry names a known node. -/
structure Sound (s : Site) : Prop where
  keyHash : ∀ id n, s.arena.get? id = some n → n.keyHash = n.key.hash
  known : ∀ hash hash' id, s.cache.entry? hash = some (hash', id) → s.arena.contains id = true

theorem sound_start (sizeBits : ℕ) : Sound ⟨.empty, .ofBits sizeBits⟩ where
  keyHash id n hget := by simp [Arena.get?, Arena.empty, Vector.get] at hget
  known _ _ _ hentry := absurd hentry entry?_ofBits_ne

/-- The later site knows what the earlier one knows, and its cache has the same size. -/
structure Precedes (s t : Site) : Prop where
  arena : s.arena.Extends t.arena
  capacity : t.cache.capacity = s.cache.capacity

theorem Precedes.refl (s : Site) : s.Precedes s := ⟨.refl _, rfl⟩

theorem Precedes.trans {s t u : Site} (hst : s.Precedes t) (htu : t.Precedes u) : s.Precedes u :=
  ⟨hst.arena.trans htu.arena, htu.capacity.trans hst.capacity⟩

variable {s s' last : Site} {use : Use} {id other : NodeId} {id? : Option NodeId}

/-- A step stores a node and leaves the cache as it is, or the other way round. -/
theorem perform_cases (h : s.perform use = .ok (id?, s')) :
    (∃ n id, use = .request n ∧ s.arena.store n.val = .ok (id, s'.arena) ∧
        s'.cache = s.cache) ∨
      ∃ call, use = .onCache call ∧ s' = s.serve call := by
  obtain ⟨n, id, rfl, -, hstore⟩ | ⟨call, rfl, -, rfl⟩ := Action.perform_cases h
  · rw [store, Outcome.bind_eq_ok_iff] at hstore
    obtain ⟨⟨id', arena⟩, hstore, h⟩ := hstore
    cases h
    exact .inl ⟨n, _, rfl, hstore, rfl⟩
  · exact .inr ⟨call, rfl, rfl⟩

theorem capacity_serve (c : Cache) (arena : Arena) (call : Call) :
    (c.serve arena call).capacity = c.capacity := by
  cases call with
  | probe other key => exact congrArg slotCount (sizeBits_probe ..)
  | offer id hash => exact congrArg slotCount (sizeBits_offer ..)
  | clear => rfl

theorem precedes_perform (h : s.perform use = .ok (id?, s')) : s.Precedes s' := by
  obtain ⟨n, id, -, hstore, hcache⟩ | ⟨call, -, rfl⟩ := perform_cases h
  · exact ⟨Arena.extends_of_store hstore, by rw [hcache]⟩
  · exact ⟨.refl _, capacity_serve s.cache s.arena call⟩

namespace Sound

theorem serve (hs : s.Sound) (call : Call) : (s.serve call).Sound := by
  refine ⟨hs.keyHash, ?_⟩
  cases call with
  | probe arena key =>
    intro hash hash' id hentry
    change entry? (s.cache.probe arena key).2 hash = _ at hentry
    rw [entry?_probe] at hentry
    exact hs.known hash hash' id hentry
  | offer offered hash =>
    intro other hash' id hentry
    obtain ⟨rfl, -, -, hadmits⟩ | hold :=
      admitted_or_entry?_of_offer (hash_lt_of_admits hs.keyHash) hentry
    · obtain ⟨n, hn, -⟩ := admits_iff.mp hadmits
      exact Option.isSome_iff_exists.mpr ⟨n, hn⟩
    · exact hs.known other hash' id hold
  | clear =>
    intro hash hash' id hentry
    change s.cache.clear.entry? hash = _ at hentry
    rw [entry?_clear] at hentry
    cases hentry

theorem perform (hs : s.Sound) (h : s.perform use = .ok (id?, s')) : s'.Sound := by
  have hprecedes := precedes_perform h
  obtain ⟨n, new, -, hstore, hcache⟩ | ⟨call, -, rfl⟩ := perform_cases h
  · constructor
    · intro id m hm
      obtain ⟨-, rfl⟩ | hm := Arena.new_or_known_of_store hstore hm
      · exact n.property
      · exact hs.keyHash id m hm
    · intro hash hash' id hentry
      rw [hcache] at hentry
      obtain ⟨m, hm⟩ := Option.isSome_iff_exists.mp (hs.known hash hash' id hentry)
      exact Option.isSome_iff_exists.mpr ⟨m, hprecedes.arena id m hm⟩
  · exact hs.serve call

/-- A step that accepts nothing and does not empty the cache changes no residency. -/
theorem isResident_eq (hs : s.Sound) (h : s.perform use = .ok (id?, s'))
    (hclear : use ≠ .onCache .clear)
    (hrefuses : ∀ other, ¬ Step.Accepts ⟨s, use, id?, s'⟩ other) (id : NodeId) :
    s'.isResident id = s.isResident id := by
  refine isResident_of_extends (precedes_perform h).arena ?_ hs.known id
  intro hash
  obtain ⟨n, new, -, -, hcache⟩ | ⟨call, rfl, rfl⟩ := perform_cases h
  · rw [hcache]
  cases call with
  | probe arena key => exact entry?_probe ..
  | offer offered word =>
    apply entry?_offer_of_not_admits
    exact fun hadmits => hrefuses offered (Step.accepts_offer_iff.mpr ⟨rfl, hadmits⟩)
  | clear => exact absurd rfl hclear

/-- After an accepted offer the node is resident, and all others that were and are spared. -/
theorem isResident_offer (hs : s.Sound) {offered : NodeId} {hash : UInt32}
    (hadmits : s.cache.admits s.arena offered hash = true) (hlater : s.Precedes last)
    (id : NodeId) :
    Site.isResident (s.serve (.offer offered hash)) id = true ↔
      Step.Accepts ⟨s, .onCache (.offer offered hash), id?, s'⟩ id ∨
        s.isResident id = true ∧
          Step.Spares ⟨s, .onCache (.offer offered hash), id?, s'⟩ last id := by
  have hhash := hash_lt_of_admits hs.keyHash hadmits
  obtain ⟨m, hm, rfl, -⟩ := admits_iff.mp hadmits
  change (s.cache.offer s.arena offered m.keyHash).2.isResident s.arena id = true ↔ _
  rw [isResident_offer_iff hadmits hhash, Step.accepts_offer_iff]
  change (id = offered ∨ s.isResident id = true ∧ _) ↔ _
  by_cases hresident : s.isResident id = true
  · obtain ⟨n, hn, -⟩ := isResident_iff.mp hresident
    rw [Step.spares_offer_iff hadmits hlater.capacity (hlater.arena id n hn)
      (hlater.arena offered m hm)]
    simp only [hresident, hadmits, hn, Option.some.injEq, forall_eq', true_and, and_true]
    tauto
  · simp [hresident, hadmits]

/-- After a step an id is resident if the step accepts it, or if it was resident before and the step
spares it. Any later site tells of the nodes. -/
theorem isResident_iff_accepts_or_spares (hs : s.Sound) (h : s.perform use = .ok (id?, s'))
    (hlater : s'.Precedes last) (id : NodeId) :
    s'.isResident id = true ↔ Step.Accepts ⟨s, use, id?, s'⟩ id ∨
      s.isResident id = true ∧ Step.Spares ⟨s, use, id?, s'⟩ last id := by
  by_cases hclear : use = .onCache .clear
  · subst hclear
    cases h
    have hempty : ¬ (s.serve .clear).isResident id = true := by
      simp [isResident, Site.serve, Cache.serve, isResident_iff]
    have hrefuses : ¬ Step.Accepts ⟨s, .onCache .clear, none, s.serve .clear⟩ id := by
      rintro ⟨hash, haction, -⟩
      cases haction
    simp [hempty, hrefuses, Step.Spares]
  by_cases haccepts : ∃ other, Step.Accepts ⟨s, use, id?, s'⟩ other
  · obtain ⟨offered, hash, haction, hadmits⟩ := haccepts
    change use = .onCache (.offer offered hash) at haction
    subst haction
    rw [offer_fst] at hadmits
    have hprecedes := (precedes_perform h).trans hlater
    cases h
    exact hs.isResident_offer hadmits hprecedes id
  · rw [not_exists] at haccepts
    have hspares : Step.Spares ⟨s, use, id?, s'⟩ last id :=
      ⟨hclear, fun other _ _ h => absurd h (haccepts other)⟩
    simp [hs.isResident_eq h hclear haccepts, haccepts id, hspares]

end Sound

/-- Every step of a run leads from one sound site to another, and the last site knows what it
knows. -/
theorem trace_spec (hs : s.Sound) (uses : List Use) :
    (s.trace uses).2.Sound ∧ s.Precedes (s.trace uses).2 ∧
      ∀ r ∈ (s.trace uses).1, r.before.Sound ∧ r.before.perform r.action = .ok (r.answer, r.after) ∧
        r.after.Precedes (s.trace uses).2 :=
  Run.steps_between Precedes.refl (fun _ _ _ => Precedes.trans)
    (fun _ _ _ _ hs h => ⟨hs.perform h, precedes_perform h⟩) hs uses

end Cache.Site

/-- A list is split at its last element or earlier. -/
theorem exists_split_concat_iff {α : Type} {x : α} {xs : List α} {P Q : α → Prop} :
    (∃ earlier y later, xs ++ [x] = earlier ++ y :: later ∧ P y ∧ ∀ z ∈ later, Q z) ↔
      P x ∨ (∃ earlier y later, xs = earlier ++ y :: later ∧ P y ∧ ∀ z ∈ later, Q z) ∧ Q x := by
  constructor
  · rintro ⟨earlier, y, later, hsplit, hy, hlater⟩
    obtain rfl | ⟨later, z, rfl⟩ := List.eq_nil_or_concat' later
    · obtain ⟨-, heq⟩ := List.append_inj' hsplit rfl
      cases heq
      exact .inl hy
    · rw [← List.cons_append, ← List.append_assoc] at hsplit
      obtain ⟨rfl, heq⟩ := List.append_inj' hsplit rfl
      cases heq
      rw [List.forall_mem_append, List.forall_mem_singleton] at hlater
      exact .inr ⟨⟨earlier, y, later, rfl, hy, hlater.1⟩, hlater.2⟩
  · rintro (hx | ⟨⟨earlier, y, later, rfl, hy, hlater⟩, hx⟩)
    · exact ⟨xs, x, [], rfl, hx, by simp⟩
    · refine ⟨earlier, y, later ++ [x], by simp, hy, ?_⟩
      rw [List.forall_mem_append, List.forall_mem_singleton]
      exact ⟨hlater, hx⟩

namespace Cache.Site

variable {s : Site}

/-- After a run an id is resident if it was accepted, or resident at the start, and every step since
spares it. -/
theorem isResident_trace_iff (hs : s.Sound) (uses : List Use) (id : NodeId) :
    let steps := (s.trace uses).1
    let last := (s.trace uses).2
    last.isResident id = true ↔
      (∃ earlier r later, steps = earlier ++ r :: later ∧ r.Accepts id ∧
        ∀ q ∈ later, q.Spares last id) ∨
      s.isResident id = true ∧ ∀ q ∈ steps, q.Spares last id := by
  intro steps last
  have hspec := (trace_spec hs uses).2.2
  refine Run.steps_induction (s := s) (fun past t => t.isResident id = true ↔
    (∃ earlier r later, past = earlier ++ r :: later ∧ r.Accepts id ∧
      ∀ q ∈ later, q.Spares last id) ∨ s.isResident id = true ∧ ∀ q ∈ past, q.Spares last id)
    (by simp) ?_
  intro past before use id? after hsteps hstep hpast
  obtain ⟨hbefore, -, hlater⟩ := hspec ⟨before, use, id?, after⟩ (hsteps.subset (by simp))
  rw [hbefore.isResident_iff_accepts_or_spares hstep hlater id, hpast, exists_split_concat_iff,
    List.forall_mem_append, List.forall_mem_singleton, or_and_right, or_assoc, and_assoc]

/-- A refused offer and a probe change no residency. -/
theorem isResident_of_refused {s' : Site} {use : Use} {id? : Option NodeId} (hs : s.Sound)
    (h : s.perform use = .ok (id?, s'))
    (hidle : (∃ arena key, use = .onCache (.probe arena key)) ∨ ∃ id hash,
      use = .onCache (.offer id hash) ∧ (s.cache.offer s.arena id hash).1 = false)
    (id : NodeId) : s'.isResident id = s.isResident id := by
  obtain ⟨arena, key, rfl⟩ | ⟨offered, hash, rfl, hrefused⟩ := hidle
  · apply hs.isResident_eq h (by simp)
    rintro other ⟨hash, haction, -⟩
    cases haction
  · apply hs.isResident_eq h (by simp)
    intro other haccepts
    rw [offer_fst] at hrefused
    rw [Step.accepts_offer_iff, hrefused] at haccepts
    cases haccepts.2

/-- Residency is a matter of history. For a cache of any size and whatever is done with it and one
arena, an id is resident exactly if an offer of it was accepted, and since then the cache was not
emptied and no offer was accepted of another node whose hash is congruent to that of its node modulo
the capacity. An offer is accepted exactly if the node is known, has the hash that it is offered
under and may be held, and each child is known and has no slots or is resident. Probes and refused
offers change no residency, and the word of an accepted offer never is that of an empty slot. -/
theorem resident_iff_last_accepted (sizeBits : ℕ) (uses : List Use) :
    let start : Site := ⟨.empty, .ofBits sizeBits⟩
    let steps := (start.trace uses).1
    let last := (start.trace uses).2
    last.cache.capacity = 2 ^ sizeBits ∧
      (∀ id, last.isResident id = true ↔
        ∃ earlier r later, steps = earlier ++ r :: later ∧ r.Accepts id ∧
          ∀ q ∈ later, q.Spares last id) ∧
      (∀ r ∈ steps, ∀ id, r.Accepts id ↔ ∃ n, r.action = .onCache (.offer id n.keyHash) ∧
        r.before.arena.get? id = some n ∧ n.isCacheable = true ∧ ∀ child ∈ n.children,
          ∃ m, r.before.arena.get? child = some m ∧
            (m.slots = [] ∨ r.before.isResident child = true)) ∧
      (∀ r ∈ steps, ((∃ arena key, r.action = .onCache (.probe arena key)) ∨ ∃ id hash,
          r.action = .onCache (.offer id hash) ∧
            (r.before.cache.offer r.before.arena id hash).1 = false) →
        ∀ id, r.after.isResident id = r.before.isResident id) ∧
      ∀ r ∈ steps, ∀ id hash, r.action = .onCache (.offer id hash) →
        (r.before.cache.offer r.before.arena id hash).1 = true →
          r.after.cache.word hash = Word.pack hash id ∧ Word.pack hash id ≠ Word.empty := by
  intro start steps last
  have hstart : start.Sound := sound_start sizeBits
  obtain ⟨-, hprecedes, hsteps⟩ := trace_spec hstart uses
  refine ⟨hprecedes.capacity.trans (Nat.one_shiftLeft sizeBits), ?_, ?_, ?_, ?_⟩
  · intro id
    have hempty : start.isResident id = false := by
      simp [start, isResident, Cache.isResident, Arena.get?, Arena.empty, Vector.get]
    have htrace := isResident_trace_iff hstart uses id
    simpa only [hempty, Bool.false_eq_true, false_and, or_false] using htrace
  · exact fun r _ id => Step.accepts_iff
  · intro r hr hidle id
    obtain ⟨hs, hstep, -⟩ := hsteps r hr
    exact isResident_of_refused hs hstep hidle id
  · intro r hr id hash haction haccepted
    obtain ⟨hs, hstep, -⟩ := hsteps r hr
    rw [haction] at hstep
    rw [offer_fst] at haccepted
    have hafter : r.before.serve (.offer id hash) = r.after :=
      congrArg Prod.snd (Except.ok.inj hstep)
    refine ⟨?_, Word.pack_ne_empty (hash_lt_of_admits hs.keyHash haccepted) id⟩
    rw [← hafter]
    exact (word_offer_of_admits haccepted hash).trans (if_pos rfl)

/-- A node is accepted and stays resident while it is offered in vain under another hash and the
cache is probed, until a node with a congruent hash is accepted. -/
theorem resident_iff_last_accepted_until_displaced :
    let node (kind : UInt16) : { n : Node // n.keyHash = n.key.hash } :=
      ⟨.interior ⟨⟨kind⟩, .present, []⟩ 0, rfl⟩
    let uses : List Use := [.request (node 20), .request (node 36), .onCache (.offer ⟨41⟩ 21),
      .onCache (.offer ⟨41⟩ 37), .onCache (.probe .empty (node 36).val.key),
      .onCache (.offer ⟨63⟩ 37)]
    let start : Site := ⟨.empty, .ofBits 4⟩
    let steps := (start.trace uses).1
    let last := (start.trace uses).2
    steps.map (fun r => (r.after.isResident ⟨41⟩, r.after.isResident ⟨63⟩)) =
        [(false, false), (false, false), (true, false), (true, false), (true, false),
          (false, true)] ∧
      (∃ q ∈ steps, q.Accepts ⟨63⟩) ∧
      ∃ earlier r later, steps = earlier ++ r :: later ∧ r.Accepts ⟨41⟩ ∧
        ∃ q ∈ later, ¬ q.Spares last ⟨41⟩ := by
  intro node uses start steps last
  obtain ⟨-, hlast, -⟩ := resident_iff_last_accepted 4 uses
  obtain ⟨-, hpart, -⟩ := resident_iff_last_accepted 4 (uses.take 5)
  have hkept : (start.trace (uses.take 5)).2.isResident ⟨41⟩ = true := by decide +kernel
  have hlost : ¬ last.isResident ⟨41⟩ = true := by decide +kernel
  have hnew : last.isResident ⟨63⟩ = true := by decide +kernel
  refine ⟨by decide +kernel, ?_, ?_⟩
  · obtain ⟨earlier, q, later, hsteps, haccepts, -⟩ := (hlast ⟨63⟩).mp hnew
    refine ⟨q, ?_, haccepts⟩
    change q ∈ (start.trace uses).1
    rw [hsteps]
    exact List.mem_append_right _ List.mem_cons_self
  · obtain ⟨earlier, r, later, hsteps, haccepts, -⟩ := (hpart ⟨41⟩).mp hkept
    obtain ⟨more, hmore⟩ : (start.trace (uses.take 5)).1 <+: steps :=
      Run.steps_isPrefix_append start (uses.take 5) (uses.drop 5)
    rw [hsteps, List.append_assoc, List.cons_append] at hmore
    refine ⟨earlier, r, later ++ more, hmore.symm, haccepts, ?_⟩
    by_contra hspared
    push Not at hspared
    exact hlost ((hlast ⟨41⟩).mpr ⟨earlier, r, later ++ more, hmore.symm, haccepts, hspared⟩)

end Cache.Site
end GreenTree
