import GreenTree.Proofs.Cache.Counting
import GreenTree.Proofs.Store.Replies
import GreenTree.Proofs.Store.Soundness
import Mathlib.Data.Set.Card

/-!
# Accounts of a store

A store that nobody else reaches into probes its cache once for every node over slots. It builds the
node unless the answer is a hit, and it offers it after a miss. A node is offered when it is new, so
an accepted one takes a free slot or that of another resident node, and the counters tell how many
nodes are resident.
-/

namespace GreenTree

instance : Finite NodeId :=
  Finite.of_injective (fun id : NodeId => id.val.toFin) fun a b h => by
    cases a
    cases b
    exact congrArg NodeId.mk (UInt32.toFin_inj.mp h)

/-- The request is for a node over slots. -/
def Reply.asksForNode (r : Reply) : Bool := r.asked.key?.isSome

/-- How many nodes were stored for the reply. -/
def Reply.stored (r : Reply) : ℕ := r.after.arena.size - r.before.arena.size

namespace Store

/-- The ids that are resident. -/
def residents (s : Store) : Set NodeId := {id | s.cache.isResident s.arena id = true}

/-- What the counters of a store say after so many probes and offers: nodes were stored for all
probes but the hits, and accepted nodes are resident if they were not evicted. -/
structure Accounts (s : Store) (probes offers stored : ℕ) : Prop where
  sound : s.Sound
  balanced : s.cache.counters.Balanced probes offers
  stored : s.cache.counters.misses.toNat + s.cache.counters.ineligible.toNat = stored
  residents :
    s.residents.ncard + s.cache.counters.evictions.toNat = s.cache.counters.adds.toNat

variable {s s' : Store} {kind : Kind} {flags : Flags} {slots : List (Option NodeId)} {id : NodeId}
  {probes offers stored : ℕ} {asked : Request NodeId}

theorem accounts_ofBits (instanceNumber sizeBits : ℕ) :
    (ofCache instanceNumber (.ofBits sizeBits)).Accounts 0 0 0 where
  sound := sound_ofBits instanceNumber sizeBits
  balanced := Cache.Counters.balanced_zero
  stored := rfl
  residents := by
    have hempty : (ofCache instanceNumber (.ofBits sizeBits)).residents = ∅ := by
      ext id
      simp [residents, ofCache, Cache.isResident, Arena.get?, Arena.empty, Vector.get]
    rw [hempty, Set.ncard_empty]
    rfl

namespace Sound

theorem residents_eq (hs : s.Sound) (hafter : s.arena.Extends s'.arena)
    (hentry : ∀ hash, s'.cache.entry? hash = s.cache.entry? hash) :
    s'.residents = s.residents := by
  ext id
  have hknown : ∀ hash hash' id, s.cache.entry? hash = some (hash', id) →
      s.arena.contains id = true := by
    intro hash hash' id h
    obtain ⟨-, n, hn, -⟩ := hs.entry hash hash' id h
    exact Option.isSome_iff_exists.mpr ⟨n, hn⟩
  exact (Bool.eq_iff_iff.mp (Cache.isResident_of_extends hafter hentry hknown id))

/-- Who is resident after an accepted offer: the node itself, and all others but the one whose entry
was in the slot. -/
theorem residents_offer (hs : s.Sound) {hash : UInt32}
    (hadmits : s.cache.admits s.arena id hash = true) :
    residents { s with cache := (s.cache.offer s.arena id hash).2 } =
      insert id (s.residents \ {other | ∃ hash', s.cache.entry? hash = some (hash', other)}) := by
  ext other
  change (s.cache.offer s.arena id hash).2.isResident s.arena other = true ↔ _
  rw [Cache.isResident_offer_iff hadmits (hs.formed.hash_lt_of_admits hadmits)]
  refine or_congr_right (and_congr_right fun hresident => ?_)
  obtain ⟨n, hn, hheld⟩ := Cache.isResident_iff.mp hresident
  constructor
  · rintro hslot ⟨hash', hentry⟩
    obtain ⟨hsame, m, hm, hkey, -⟩ := hs.entry hash hash' other hentry
    exact hslot m hm (hkey ▸ (Fin.ext hsame).symm)
  · intro hnot m hm hslot
    rw [hn, Option.some.injEq] at hm
    subst hm
    exact hnot ⟨n.keyHash, (Cache.entry?_of_slot_eq hslot).symm.trans hheld⟩

/-- An accepted offer of a node that is not resident makes one more resident, unless another one has
to give way. -/
theorem ncard_residents_offer (hs : s.Sound) {hash : UInt32} (hnew : id ∉ s.residents)
    (hadmits : s.cache.admits s.arena id hash = true) :
    (residents { s with cache := (s.cache.offer s.arena id hash).2 }).ncard +
      (if s.cache.Evicts id hash then 1 else 0) = s.residents.ncard + 1 := by
  rw [hs.residents_offer hadmits]
  rcases hentry : s.cache.entry? hash with _ | ⟨hash', old⟩
  · have hkept : ¬ s.cache.Evicts id hash := fun h => h.1 (Cache.entry?_eq_none_iff.mp hentry)
    rw [if_neg hkept]
    simpa using Set.ncard_insert_of_notMem hnew
  · have hword : s.cache.word hash ≠ Cache.Word.pack hash id := by
      intro hword
      have hheld : s.cache.entry? hash = some (hash, id) := by
        unfold Cache.entry?
        rw [hword, Cache.Word.unpack?_pack (hs.formed.hash_lt_of_admits hadmits)]
      obtain ⟨n, hn, rfl, -⟩ := Cache.admits_iff.mp hadmits
      exact hnew (Cache.isResident_iff.mpr ⟨n, hn, hheld⟩)
    have hevicts : s.cache.Evicts id hash := by
      refine ⟨fun hempty => ?_, hword⟩
      rw [Cache.entry?_eq_none_iff.mpr hempty] at hentry
      cases hentry
    obtain ⟨hslot, m, hm, rfl, -⟩ := hs.entry hash hash' old hentry
    have hold : old ∈ s.residents := by
      refine Cache.isResident_iff.mpr ⟨m, hm, ?_⟩
      rw [← Cache.entry?_of_slot_eq (Fin.ext hslot), hentry]
    have hsingle : {other | ∃ hash', some (m.keyHash, old) = some (hash', other)} = {old} := by
      ext other
      simp [eq_comm]
    rw [hsingle, if_pos hevicts, Set.ncard_insert_of_notMem (fun h => hnew h.1),
      Set.ncard_sdiff_singleton_add_one hold]

end Sound

theorem cache_of_answer (hkey : asked.key? = none) (h : s.answer asked = .ok (id, s')) :
    s'.cache = s.cache := by
  have htoken : ∀ {kind flags text}, s.token kind flags text = .ok (id, s') →
      s'.cache = s.cache := by
    intro kind flags text h
    obtain ⟨-, rfl⟩ | ⟨-, n, arena, -, -, rfl⟩ := token_cases h <;> rfl
  have hstored : ∀ {n}, s.store n = .ok (id, s') → s'.cache = s.cache := by
    intro n h
    obtain ⟨arena, -, rfl⟩ := store_eq_ok h
    rfl
  have hcopy : ∀ {source change}, s.copyWith source change = .ok (id, s') →
      s'.cache = s.cache := by
    intro source change h
    obtain ⟨-, -, rfl⟩ | ⟨n, -, h⟩ := copyWith_cases h
    · rfl
    · exact hstored h
  cases asked with
  | token kind text => exact htoken h
  | flaggedToken kind flags text => exact htoken h
  | missingToken kind =>
    change s.missingToken kind = _ at h
    rw [missingToken, Outcome.bind_eq_ok_iff] at h
    obtain ⟨n, -, h⟩ := h
    exact hstored h
  | diagnose source diagnostics => exact hcopy h
  | annotate source annotations => exact hcopy h
  | node _ _ _ | defaultNode _ _ | list _ => cases hkey

namespace Accounts

theorem of_cache_eq (h : s.Accounts probes offers stored) (hs' : s'.Sound)
    (hafter : s.arena.Extends s'.arena) (hcache : s'.cache = s.cache) :
    s'.Accounts probes offers stored := by
  have hsame : s'.residents = s.residents := h.sound.residents_eq hafter (by simp [hcache])
  refine ⟨hs', ?_, ?_, ?_⟩
  · exact hcache ▸ h.balanced
  · exact hcache ▸ h.stored
  · rw [hsame, hcache]
    exact h.residents

/-- A node is to be stored after a probe that is no hit. -/
theorem probe (h : s.Accounts probes offers stored) (hroom : probes + 1 < 2 ^ 64) {key : NodeKey}
    (hs' : s'.Sound) (hafter : s.arena.Extends s'.arena)
    (hcache : s'.cache = (s.cache.probe s.arena key).2) :
    s'.Accounts (probes + 1) offers
      (stored + if (s.cache.probe s.arena key).1.isHit = true then 0 else 1) := by
  have hsame : s'.residents = s.residents := h.sound.residents_eq hafter (by simp [hcache])
  obtain ⟨-, hbalanced, hstored, hresidents⟩ := h
  have hanswers := hbalanced.answers
  have hmissed :=
    Cache.Counters.toNat_succ (show s.cache.counters.misses.toNat + 1 < 2 ^ 64 by omega)
  have hineligible :=
    Cache.Counters.toNat_succ (show s.cache.counters.ineligible.toNat + 1 < 2 ^ 64 by omega)
  have hcounters : s'.cache.counters =
      s.cache.counters.afterProbe (s.cache.probe s.arena key).1 := by
    rw [hcache, Cache.counters_probe]
  refine ⟨hs', ?_, ?_, ?_⟩
  · rw [hcache]
    exact Cache.balanced_probe hbalanced hroom s.arena key
  · rw [hcounters]
    cases (s.cache.probe s.arena key).1 <;>
      simp [Cache.Counters.afterProbe, Cache.Probe.isHit] <;> omega
  · rw [hsame, hcounters]
    cases (s.cache.probe s.arena key).1 <;> exact hresidents

/-- A node that is not resident may be offered. -/
theorem offer (h : s.Accounts probes offers stored) (hroom : offers + 1 < 2 ^ 64)
    (hnew : id ∉ s.residents) (hash : UInt32) :
    Accounts { s with cache := (s.cache.offer s.arena id hash).2 } probes (offers + 1) stored := by
  have hact : s.act (.onCache (.offer id hash)) =
      .ok (none, { s with cache := (s.cache.offer s.arena id hash).2 }) := rfl
  have hs' := h.sound.act hact
  obtain ⟨hs, hbalanced, hstored, hresidents⟩ := h
  have hverdicts := hbalanced.verdicts
  have hevictions := hbalanced.evictions
  have hadded := Cache.Counters.toNat_succ (show s.cache.counters.adds.toNat + 1 < 2 ^ 64 by omega)
  have hevicted :=
    Cache.Counters.toNat_succ (show s.cache.counters.evictions.toNat + 1 < 2 ^ 64 by omega)
  refine ⟨hs', Cache.balanced_offer hbalanced hroom .., ?_, ?_⟩
  · by_cases hadmits : s.cache.admits s.arena id hash = true
    · simp only [Cache.counters_offer_of_admits hadmits]
      exact hstored
    · simp only [Cache.counters_offer_of_not_admits hadmits]
      exact hstored
  · by_cases hadmits : s.cache.admits s.arena id hash = true
    · have hcount := hs.ncard_residents_offer hnew hadmits
      simp only [Cache.counters_offer_of_admits hadmits]
      split_ifs at hcount ⊢ <;> omega
    · have hsame : Store.residents { s with cache := (s.cache.offer s.arena id hash).2 } =
          s.residents := hs.residents_eq (.refl _) (Cache.entry?_offer_of_not_admits hadmits)
      simp only [Cache.counters_offer_of_not_admits hadmits, hsame]
      exact hresidents

/-- A request for a node over slots is one probe. Unless it is a hit, a node is stored, and after a
miss it is offered. -/
theorem node (h : s.Accounts probes s.cache.counters.misses.toNat stored)
    (hroom : probes + 1 < 2 ^ 64) (hnode : s.node kind flags slots = .ok (id, s')) :
    s'.Accounts (probes + 1) s'.cache.counters.misses.toNat
      (stored + (s'.arena.size - s.arena.size)) := by
  have hanswer : s.answer (.node kind flags slots) = .ok (id, s') := hnode
  have hcounters := Cache.counters_probe s.cache s.arena ⟨kind, flags.undecorated, slots⟩
  obtain ⟨hhit, rfl⟩ | ⟨arena, hstore, hrest⟩ := node_probed hnode
  · have hprobed := h.probe hroom (h.sound.act (act_of_answer hanswer)) (.refl _) rfl
    rw [hhit] at hprobed hcounters
    simpa [Cache.Probe.isHit, hcounters, Cache.Counters.afterProbe] using hprobed
  have hafter := Arena.extends_of_store hstore
  have hsize : arena.size = s.arena.size + 1 := Arena.size_of_storeIn hstore
  -- The store with the new node, before it is offered.
  let t : Store :=
    { s with arena, cache := (s.cache.probe s.arena ⟨kind, flags.undecorated, slots⟩).2 }
  have hchange : s.Change (.request (.node kind flags slots)) t :=
    .built rfl hstore (.inl (.probe ..))
  have hprobed := h.probe hroom (h.sound.change hchange) hafter rfl
  obtain ⟨hineligible, rfl⟩ | ⟨hash, hmiss, rfl⟩ := hrest
  · rw [hineligible] at hprobed hcounters
    simpa [Cache.Probe.isHit, hcounters, Cache.Counters.afterProbe, hsize] using hprobed
  · rw [hmiss] at hprobed hcounters
    have hbound := h.balanced.answers
    have hmissed : t.cache.counters.misses.toNat = s.cache.counters.misses.toNat + 1 := by
      change (s.cache.probe s.arena _).2.counters.misses.toNat = _
      rw [hcounters]
      exact Cache.Counters.toNat_succ (by omega)
    have hnew : id ∉ t.residents := by
      rw [h.sound.residents_eq hafter (by simp [t])]
      intro hresident
      obtain ⟨n, hn, -⟩ := Cache.isResident_iff.mp hresident
      rw [Arena.get?_fresh_of_storeIn hstore] at hn
      cases hn
    have hoffered := hprobed.offer (by omega) hnew hash
    simp only [Cache.misses_offer]
    rw [hsize, Nat.add_sub_cancel_left]
    change Accounts _ _ t.cache.counters.misses.toNat _
    rw [hmissed]
    exact hoffered

end Accounts

theorem length_attend_le (s : Store) (events : List Event) :
    (s.attend events).1.length ≤ events.length :=
  (List.length_filterMap_le _ _).trans (Run.length_steps_le undergo s events)

/-- The accounts of a run of requests. -/
theorem accounts_attend (instanceNumber sizeBits : ℕ) {requests : List (Request NodeId)}
    (hroom : requests.length < 2 ^ 64) :
    let replies := ((ofCache instanceNumber (.ofBits sizeBits)).attend
      (requests.map .request)).1
    let last := ((ofCache instanceNumber (.ofBits sizeBits)).attend (requests.map .request)).2
    last.Accounts (replies.countP Reply.asksForNode) last.cache.counters.misses.toNat
      ((replies.filter Reply.asksForNode).map Reply.stored).sum := by
  intro replies last
  refine attend_induction (fun past s => past.length < 2 ^ 64 →
    s.Accounts (past.countP Reply.asksForNode) s.cache.counters.misses.toNat
      ((past.filter Reply.asksForNode).map Reply.stored).sum) ?_ ?_ ?_ ?_
  · exact fun _ => accounts_ofBits instanceNumber sizeBits
  · intro change hchange
    simp at hchange
  · intro past r _ hpast hanswer hlength
    rw [List.length_append, List.length_singleton] at hlength
    have hbefore := hpast (by omega)
    have hcount : past.countP Reply.asksForNode ≤ past.length := List.countP_le_length
    rw [List.countP_append, List.countP_singleton, List.filter_append, List.filter_singleton]
    rcases hkey : r.asked.key? with _ | key
    · have hcache := cache_of_answer hkey hanswer
      have hasks : r.asksForNode = false := by rw [Reply.asksForNode, hkey]; rfl
      rw [hasks, hcache]
      simpa using hbefore.of_cache_eq (hbefore.sound.act (act_of_answer hanswer))
        (change_of_answer hanswer).extends hcache
    · have hasks : r.asksForNode = true := by rw [Reply.asksForNode, hkey]; rfl
      obtain ⟨kind, flags, slots, -, hnode⟩ := Request.exists_node_of_key? hkey
      rw [hnode] at hanswer
      rw [hasks]
      simpa [Reply.stored] using hbefore.node (by omega) hanswer
  · have hlength := length_attend_le (ofCache instanceNumber (.ofBits sizeBits))
      (requests.map .request)
    rw [List.length_map] at hlength
    exact hlength.trans_lt hroom

/-- Counters conserve events. While a cache is called fewer times than a counter can count, every
lookup is a hit, a miss or ineligible, every offer is counted as accepted or refused, and no more is
evicted than was accepted. If only a store calls it, there is one lookup for every request for a
node over slots and one offer for every miss, a node is stored for every lookup but the hits, and as
many ids are resident as were accepted and not evicted. -/
theorem counters_conserve_events :
    (∀ (sizeBits : ℕ) (calls : List (Arena × Cache.Call)), calls.length < 2 ^ 64 →
      let n := (Cache.serveEach (.ofBits sizeBits) calls).counters
      n.lookups.toNat = n.hits.toNat + n.misses.toNat + n.ineligible.toNat ∧
        n.lookups.toNat = calls.countP (·.2.isProbe) ∧
        n.adds.toNat + n.rejectedAdds.toNat = calls.countP (·.2.isOffer) ∧
        n.evictions.toNat ≤ n.adds.toNat) ∧
      ∀ (instanceNumber sizeBits : ℕ) (requests : List (Request NodeId)),
        requests.length < 2 ^ 64 →
          let start := ofCache instanceNumber (.ofBits sizeBits)
          let replies := (start.attend (requests.map .request)).1
          let last := (start.attend (requests.map .request)).2
          let n := last.cache.counters
          n.lookups.toNat = n.hits.toNat + n.misses.toNat + n.ineligible.toNat ∧
            n.evictions.toNat ≤ n.adds.toNat ∧
            replies.countP Reply.asksForNode = n.lookups.toNat ∧
            n.adds.toNat + n.rejectedAdds.toNat = n.misses.toNat ∧
            ((replies.filter Reply.asksForNode).map Reply.stored).sum =
              n.misses.toNat + n.ineligible.toNat ∧
            {id | last.cache.isResident last.arena id = true}.ncard =
              n.adds.toNat - n.evictions.toNat := by
  constructor
  · intro sizeBits calls hroom n
    have hstart : (Cache.ofBits sizeBits).counters.Balanced 0 0 := Cache.Counters.balanced_zero
    obtain ⟨hlookups, hanswers, hverdicts, hevictions⟩ :=
      Cache.balanced_serveEach hstart calls (by omega)
    rw [Nat.zero_add] at hlookups hanswers hverdicts
    exact ⟨hlookups.trans hanswers.symm, hlookups, hverdicts, hevictions⟩
  · intro instanceNumber sizeBits requests hroom start replies last n
    obtain ⟨-, ⟨hlookups, hanswers, hverdicts, hevictions⟩, hstored, hresidents⟩ :=
      accounts_attend instanceNumber sizeBits hroom
    exact ⟨hlookups.trans hanswers.symm, hevictions, hlookups.symm, hverdicts, hstored.symm,
      Nat.eq_sub_of_add_eq hresidents⟩

/-- A cache is asked in vain and refuses a node. A store finds a node again, builds one over a
missing token, lets a node give way to another one, and is refused a node over that node. -/
theorem counters_conserve_events_with_eviction :
    let calls : List (Arena × Cache.Call) := [(.empty, .probe .empty ⟨⟨20⟩, .present, []⟩),
      (.empty, .probe .empty ⟨⟨20⟩, .present, [some ⟨37⟩]⟩), (.empty, .clear),
      (.empty, .offer ⟨37⟩ 0)]
    let requests : List (Request NodeId) := [.token ⟨10⟩ "a", .node ⟨20⟩ .present [some ⟨37⟩],
      .defaultNode ⟨20⟩ [some ⟨37⟩], .missingToken ⟨10⟩, .list [⟨37⟩, ⟨18⟩],
      .defaultNode ⟨36⟩ [some ⟨37⟩], .defaultNode ⟨21⟩ [some ⟨24⟩]]
    let n := (Cache.serveEach (.ofBits 4) calls).counters
    let last := ((ofCache 1 (.ofBits 4)).attend (requests.map .request)).2
    calls.length < 2 ^ 64 ∧ requests.length < 2 ^ 64 ∧ n = ⟨2, 0, 1, 1, 0, 1, 0⟩ ∧
      n.lookups.toNat = calls.countP (·.2.isProbe) ∧
      last.cache.counters = ⟨5, 1, 3, 1, 2, 1, 1⟩ ∧
      {id | last.cache.isResident last.arena id = true}.ncard = 1 := by
  intro calls requests
  have hcalls : calls.length < 2 ^ 64 := by decide
  have hrequests : requests.length < 2 ^ 64 := by decide
  have hn : (Cache.serveEach (.ofBits 4) calls).counters = ⟨2, 0, 1, 1, 0, 1, 0⟩ := by
    decide +kernel
  have hlast : ((ofCache 1 (.ofBits 4)).attend (requests.map .request)).2.cache.counters =
      ⟨5, 1, 3, 1, 2, 1, 1⟩ := by decide +kernel
  have hlookups := (counters_conserve_events.1 4 calls hcalls).2.1
  have hresidents := (counters_conserve_events.2 1 4 requests hrequests).2.2.2.2.2
  -- The runs are not looked into any more.
  generalize Cache.serveEach (.ofBits 4) calls = cache at *
  generalize ((ofCache 1 (.ofBits 4)).attend (requests.map .request)).2 = last at *
  rw [hlast] at hresidents
  exact ⟨hcalls, hrequests, hn, hlookups, hlast, hresidents⟩

end Store
end GreenTree
