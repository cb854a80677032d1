import GreenTree.Proofs.Cache.Entries
import GreenTree.Proofs.Run

/-!
# Counted calls

Every probe is a lookup with one of three answers, and every offer is accepted or refused. As long
as there are fewer calls than a counter can count, the counters therefore add up.
-/

namespace GreenTree.Cache

/-- The cache after some calls, each with an arena of its own. -/
def serveEach (c : Cache) (calls : List (Arena × Call)) : Cache :=
  calls.foldl (fun c call => c.serve call.1 call.2) c

def Probe.isHit : Probe → Bool
  | hit _ => true
  | miss _ | ineligible => false

/-- An offer under this hash, if it is accepted, takes the place of another entry. -/
def Evicts (c : Cache) (id : NodeId) (hash : UInt32) : Prop :=
  c.word hash ≠ Word.empty ∧ c.word hash ≠ Word.pack hash id

instance (c : Cache) (id : NodeId) (hash : UInt32) : Decidable (c.Evicts id hash) :=
  inferInstanceAs (Decidable (_ ∧ _))

namespace Counters

/-- The counters after a probe with this answer. -/
def afterProbe (n : Counters) : Probe → Counters
  | .hit _ => { n with lookups := n.lookups + 1, hits := n.hits + 1 }
  | .miss _ => { n with lookups := n.lookups + 1, misses := n.misses + 1 }
  | .ineligible => { n with lookups := n.lookups + 1, ineligible := n.ineligible + 1 }

/-- The counters of so many probes and offers: lookups are told apart by their answers, and offers
by whether they were accepted, and nothing is evicted but by an accepted offer. -/
structure Balanced (n : Counters) (probes offers : ℕ) : Prop where
  lookups : n.lookups.toNat = probes
  answers : n.hits.toNat + n.misses.toNat + n.ineligible.toNat = probes
  verdicts : n.adds.toNat + n.rejectedAdds.toNat = offers
  evictions : n.evictions.toNat ≤ n.adds.toNat

theorem toNat_succ {count : UInt64} (h : count.toNat + 1 < 2 ^ 64) :
    (count + 1).toNat = count.toNat + 1 := by
  rw [UInt64.toNat_add]
  exact Nat.mod_eq_of_lt h

variable {n : Counters} {probes offers : ℕ}

theorem balanced_zero : Balanced {} 0 0 := by
  constructor <;> simp

theorem Balanced.afterProbe (h : n.Balanced probes offers) (hroom : probes + 1 < 2 ^ 64)
    (answer : Probe) : (n.afterProbe answer).Balanced (probes + 1) offers := by
  obtain ⟨hlookups, hanswers, hverdicts, hevictions⟩ := h
  have hlooked := toNat_succ (show n.lookups.toNat + 1 < 2 ^ 64 by omega)
  have hhit := toNat_succ (show n.hits.toNat + 1 < 2 ^ 64 by omega)
  have hmissed := toNat_succ (show n.misses.toNat + 1 < 2 ^ 64 by omega)
  have hineligible := toNat_succ (show n.ineligible.toNat + 1 < 2 ^ 64 by omega)
  cases answer <;>
    exact ⟨by simp only [Counters.afterProbe]; omega, by simp only [Counters.afterProbe]; omega,
      hverdicts, hevictions⟩

end Counters

variable {c : Cache} {arena : Arena} {id : NodeId} {hash : UInt32} {probes offers : ℕ}

theorem counters_probe (c : Cache) (arena : Arena) (key : NodeKey) :
    (c.probe arena key).2.counters = c.counters.afterProbe (c.probe arena key).1 := by
  unfold probe
  split
  · rfl
  · split <;> rfl

theorem counters_offer_of_admits (h : c.admits arena id hash = true) :
    (c.offer arena id hash).2.counters =
      { c.counters with
        adds := c.counters.adds + 1
        evictions :=
          if c.Evicts id hash then c.counters.evictions + 1 else c.counters.evictions } := by
  rw [offer, if_pos h]
  rfl

theorem counters_offer_of_not_admits (h : ¬ c.admits arena id hash = true) :
    (c.offer arena id hash).2.counters =
      { c.counters with rejectedAdds := c.counters.rejectedAdds + 1 } := by
  rw [offer, if_neg h]
  rfl

theorem misses_offer (c : Cache) (arena : Arena) (id : NodeId) (hash : UInt32) :
    (c.offer arena id hash).2.counters.misses = c.counters.misses := by
  unfold offer
  split <;> rfl

theorem balanced_probe (h : c.counters.Balanced probes offers) (hroom : probes + 1 < 2 ^ 64)
    (arena : Arena) (key : NodeKey) :
    (c.probe arena key).2.counters.Balanced (probes + 1) offers := by
  rw [counters_probe]
  exact h.afterProbe hroom _

theorem balanced_offer (h : c.counters.Balanced probes offers) (hroom : offers + 1 < 2 ^ 64)
    (arena : Arena) (id : NodeId) (hash : UInt32) :
    (c.offer arena id hash).2.counters.Balanced probes (offers + 1) := by
  obtain ⟨hlookups, hanswers, hverdicts, hevictions⟩ := h
  by_cases hadmits : c.admits arena id hash = true
  · rw [counters_offer_of_admits hadmits]
    have hadded := Counters.toNat_succ (show c.counters.adds.toNat + 1 < 2 ^ 64 by omega)
    have hevicted := Counters.toNat_succ (show c.counters.evictions.toNat + 1 < 2 ^ 64 by omega)
    refine ⟨hlookups, hanswers, ?_, ?_⟩
    · simp only
      omega
    · simp only
      split_ifs <;> omega
  · rw [counters_offer_of_not_admits hadmits]
    have hrejected :=
      Counters.toNat_succ (show c.counters.rejectedAdds.toNat + 1 < 2 ^ 64 by omega)
    refine ⟨hlookups, hanswers, ?_, hevictions⟩
    simp only
    omega

/-- Every call is counted once. -/
theorem balanced_serve (h : c.counters.Balanced probes offers)
    (hroom : probes + offers + 1 < 2 ^ 64) (arena : Arena) (call : Call) :
    (c.serve arena call).counters.Balanced (probes + if call.isProbe = true then 1 else 0)
      (offers + if call.isOffer = true then 1 else 0) := by
  cases call with
  | probe other key => exact balanced_probe h (by omega) other key
  | offer id hash => exact balanced_offer h (by omega) arena id hash
  | clear => exact h

theorem Call.not_isProbe_or_not_isOffer (call : Call) :
    call.isProbe = false ∨ call.isOffer = false := by
  cases call <;> simp [isProbe, isOffer]

/-- The counters tell how many calls of either kind there were. -/
theorem balanced_serveEach (h : c.counters.Balanced probes offers) (calls : List (Arena × Call))
    (hroom : probes + offers + calls.length < 2 ^ 64) :
    (c.serveEach calls).counters.Balanced (probes + calls.countP (·.2.isProbe))
      (offers + calls.countP (·.2.isOffer)) := by
  induction calls generalizing c probes offers with
  | nil => exact h
  | cons call rest ih =>
    rw [List.length_cons] at hroom
    rw [List.countP_cons, List.countP_cons, Nat.add_comm (rest.countP _),
      Nat.add_comm (rest.countP _), ← Nat.add_assoc, ← Nat.add_assoc]
    apply ih (balanced_serve h (by omega) call.1 call.2)
    obtain hprobe | hoffer := call.2.not_isProbe_or_not_isOffer
    · rw [hprobe, if_neg Bool.false_ne_true]
      split_ifs <;> omega
    · rw [hoffer, if_neg Bool.false_ne_true]
      split_ifs <;> omega

end GreenTree.Cache
