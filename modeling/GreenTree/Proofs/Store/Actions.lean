import GreenTree.Proofs.Store.Coherence
import GreenTree.Proofs.Store.Requests

/-!
# Actions on a store

A store is asked for nodes over any ids, and its cache is probed, emptied and offered nodes. One
action changes arena and cache in one of five ways, whatever the action is, so what a run preserves
is shown by these five cases.
-/

namespace GreenTree

/-- The key that a request for a node over slots asks for. -/
def Request.key? : Request NodeId → Option NodeKey
  | .node kind flags slots => some ⟨kind, flags.undecorated, slots⟩
  | .defaultNode kind slots => some ⟨kind, Flags.undecorated .present, slots⟩
  | .list children => some ⟨.list, Flags.undecorated .present, children.map some⟩
  | .token _ _ | .flaggedToken _ _ _ | .missingToken _ | .diagnose _ _ | .annotate _ _ => none

theorem Request.exists_node_of_key? {request : Request NodeId} {key : NodeKey}
    (h : request.key? = some key) :
    ∃ kind flags slots, key = ⟨kind, flags.undecorated, slots⟩ ∧
      ∀ s : Store, s.answer request = s.node kind flags slots := by
  cases request with
  | node kind flags slots =>
    cases h
    exact ⟨kind, flags, slots, rfl, fun _ => rfl⟩
  | defaultNode kind slots =>
    cases h
    exact ⟨kind, .present, slots, rfl, fun _ => rfl⟩
  | list children =>
    cases h
    exact ⟨.list, .present, children.map some, rfl, fun _ => rfl⟩
  | _ => cases h

/-- What may be done to a store: it is asked for a node, or its cache is probed, emptied or offered
a node of the arena. -/
abbrev Store.Action := GreenTree.Action (Request NodeId) Cache.Call

namespace Action

def isOffer : Store.Action → Bool
  | request _ => false
  | onCache call => call.isOffer

/-- The key that the action asks for, if it asks for a node over slots. -/
def key? : Store.Action → Option NodeKey
  | request asked => asked.key?
  | onCache _ => none

end Action

namespace Store

def act : Store → Action → Except Fault (Option NodeId × Store) := Action.perform answer serve

/-- All actions, or those before the first that is stopped by a fault. -/
def run (s : Store) (actions : List Action) : Store := Run.last act s actions

/-- Every action that the run takes is one that the rule allows in its state. -/
def Obeys (rule : Store → Action → Bool) (s : Store) (actions : List Action) : Prop :=
  Run.Obeys act rule s actions

instance (rule : Store → Action → Bool) (s : Store) (actions : List Action) :
    Decidable (s.Obeys rule actions) :=
  inferInstanceAs (Decidable (Run.Obeys act rule s actions))

end Store

/-- The caches differ in their counters only. -/
def Cache.Agrees (c c' : Cache) : Prop := ∃ counters, c' = { c with counters }

namespace Cache.Agrees

variable {c c' : Cache}

theorem refl (c : Cache) : c.Agrees c := ⟨c.counters, rfl⟩

theorem sizeBits_eq (h : c.Agrees c') : c'.sizeBits = c.sizeBits := by
  obtain ⟨_, rfl⟩ := h
  rfl

theorem entry?_eq (h : c.Agrees c') (hash : UInt32) : c'.entry? hash = c.entry? hash := by
  obtain ⟨_, rfl⟩ := h
  rfl

theorem probe (c : Cache) (arena : Arena) (key : NodeKey) : c.Agrees (c.probe arena key).2 := by
  unfold Cache.probe
  split
  · exact ⟨_, rfl⟩
  · split <;> exact ⟨_, rfl⟩

theorem offer (h : c.Agrees c') (arena : Arena) (id : NodeId) (hash : UInt32) :
    (c.offer arena id hash).2.Agrees (c'.offer arena id hash).2 := by
  obtain ⟨counters, rfl⟩ := h
  have hadmits : admits { c with counters } arena id hash = c.admits arena id hash := rfl
  unfold Cache.offer
  rw [hadmits]
  split <;> exact ⟨_, rfl⟩

end Cache.Agrees

/-- A token, or a decorated copy of a node of the arena. -/
inductive Node.Made (arena : Arena) : Node → Prop
  | token {kind : Kind} {flags : Flags} {text : String} {n : Node}
      (hn : Node.token kind flags text = .ok n) : Made arena n
  | diagnosed {id : NodeId} {n : Node} (hget : arena.get? id = some n)
      (diagnostics : List Diagnostic) : Made arena (n.diagnose diagnostics)
  | annotated {id : NodeId} {n : Node} (hget : arena.get? id = some n)
      (annotations : List Marker) : Made arena (n.annotate annotations)

namespace Store

/-- The ways in which an action changes arena and cache. -/
inductive Change (s : Store) (action : Action) (s' : Store) : Prop
  | kept (harena : s'.arena = s.arena) (hcache : s.cache.Agrees s'.cache)
  | stored {n : Node} {id : NodeId} (hn : n.Made s.arena)
      (hstore : s.arena.store n = .ok (id, s'.arena)) (hcache : s.cache.Agrees s'.cache)
  | built {key : NodeKey} {id : NodeId} (hkey : action.key? = some key)
      (hstore : s.arena.store (assemble s.arena key) = .ok (id, s'.arena))
      (hcache : s.cache.Agrees s'.cache ∨ ∃ effective, key.effective? s.arena = some effective ∧
        (s.cache.offer s'.arena id effective.hash).2.Agrees s'.cache)
  | offered {id : NodeId} {hash : UInt32} (haction : action = .onCache (.offer id hash))
      (harena : s'.arena = s.arena) (hcache : (s.cache.offer s.arena id hash).2.Agrees s'.cache)
  | cleared (harena : s'.arena = s.arena) (hcache : s.cache.clear.Agrees s'.cache)

variable {s s' : Store} {id : NodeId} {id? : Option NodeId} {action : Action}

theorem change_of_store {n : Node} (hn : n.Made s.arena) (h : s.store n = .ok (id, s')) :
    s.Change action s' := by
  obtain ⟨arena, hstore, rfl⟩ := store_eq_ok h
  exact .stored hn hstore (.refl _)

theorem change_of_token {kind : Kind} {flags : Flags} {text : String}
    (h : s.token kind flags text = .ok (id, s')) : s.Change action s' := by
  obtain ⟨-, rfl⟩ | ⟨-, n, arena, hn, hstore, rfl⟩ := token_cases h
  · exact .kept rfl (.refl _)
  · exact .stored (.token hn) hstore (.refl _)

theorem change_of_node {kind : Kind} {flags : Flags} {slots : List (Option NodeId)}
    (hkey : action.key? = some ⟨kind, flags.undecorated, slots⟩)
    (h : s.node kind flags slots = .ok (id, s')) : s.Change action s' := by
  have hprobe := Cache.Agrees.probe s.cache s.arena ⟨kind, flags.undecorated, slots⟩
  obtain ⟨-, -, -, rfl⟩ | ⟨arena, hstore, rfl | ⟨effective, heffective, rfl⟩⟩ := node_cases h
  · exact .kept rfl hprobe
  · exact .built hkey hstore (.inl hprobe)
  · exact .built hkey hstore (.inr ⟨effective, heffective, hprobe.offer _ _ _⟩)

theorem change_of_copyWith {source : NodeId} {change : Node → Node}
    (hchange : ∀ n, s.arena.get? source = some n → (change n).Made s.arena)
    (h : s.copyWith source change = .ok (id, s')) : s.Change action s' := by
  rw [copyWith, Store.get?] at h
  rcases hget : s.arena.get? source with _ | n
  · rw [hget] at h
    cases h
    exact .kept rfl (.refl _)
  · rw [hget] at h
    exact change_of_store (hchange n hget) h

theorem change_of_answer {request : Request NodeId} (h : s.answer request = .ok (id, s')) :
    s.Change (.request request) s' := by
  cases request with
  | token kind text => exact change_of_token h
  | flaggedToken kind flags text => exact change_of_token h
  | missingToken kind =>
    change s.missingToken kind = _ at h
    rw [missingToken, Outcome.bind_eq_ok_iff] at h
    obtain ⟨n, hn, hstore⟩ := h
    exact change_of_store (.token hn) hstore
  | node kind flags slots => exact change_of_node rfl h
  | defaultNode kind slots => exact change_of_node rfl h
  | list children => exact change_of_node rfl h
  | diagnose source diagnostics =>
    exact change_of_copyWith (fun n hget => .diagnosed hget diagnostics) h
  | annotate source annotations =>
    exact change_of_copyWith (fun n hget => .annotated hget annotations) h

theorem act_of_answer {request : Request NodeId} (h : s.answer request = .ok (id, s')) :
    s.act (.request request) = .ok (some id, s') :=
  Action.perform_of_answer h

theorem change_of_serve (s : Store) (call : Cache.Call) :
    s.Change (.onCache call) (s.serve call) := by
  cases call with
  | probe arena key => exact .kept rfl (.probe _ _ _)
  | offer id hash => exact .offered rfl rfl (.refl _)
  | clear => exact .cleared rfl (.refl _)

theorem change_of_act (h : s.act action = .ok (id?, s')) : s.Change action s' := by
  obtain ⟨asked, id, rfl, -, hanswer⟩ | ⟨call, rfl, -, rfl⟩ := Action.perform_cases h
  · exact change_of_answer hanswer
  · exact change_of_serve s call

theorem Change.extends (h : s.Change action s') : s.arena.Extends s'.arena := by
  cases h with
  | kept harena _ => exact harena ▸ .refl _
  | stored _ hstore _ => exact Arena.extends_of_store hstore
  | built _ hstore _ => exact Arena.extends_of_store hstore
  | offered _ harena _ => exact harena ▸ .refl _
  | cleared harena _ => exact harena ▸ .refl _

theorem extends_run (s : Store) (actions : List Action) :
    s.arena.Extends (s.run actions).arena := by
  refine Run.last_preserves (fun t : Store => s.arena.Extends t.arena) ?_ (.refl _)
  intro t action _ id? t' ht h
  exact ht.trans (change_of_act h).extends

theorem Change.sizeBits_eq (h : s.Change action s') : s'.cache.sizeBits = s.cache.sizeBits := by
  cases h with
  | kept _ hcache => exact hcache.sizeBits_eq
  | stored _ _ hcache => exact hcache.sizeBits_eq
  | built _ _ hcache =>
    obtain hcache | ⟨effective, -, hcache⟩ := hcache
    · exact hcache.sizeBits_eq
    · exact hcache.sizeBits_eq.trans (Cache.sizeBits_offer ..)
  | offered _ _ hcache => exact hcache.sizeBits_eq.trans (Cache.sizeBits_offer ..)
  | cleared _ hcache => exact hcache.sizeBits_eq

theorem sizeBits_run (s : Store) (actions : List Action) :
    (s.run actions).cache.sizeBits = s.cache.sizeBits := by
  refine Run.last_preserves (fun t : Store => t.cache.sizeBits = s.cache.sizeBits) ?_ rfl
  intro t action _ id? t' ht h
  exact (change_of_act h).sizeBits_eq.trans ht

theorem Coherent.copyWith (hs : s.Coherent) {source id : NodeId} {change : Node → Node}
    (h : s.copyWith source change = .ok (id, s')) : s'.Coherent := by
  rcases hget : s.arena.get? source with _ | n
  · rw [Store.copyWith, Store.get?, hget] at h
    cases h
    exact hs
  · exact (copyWith_serves hs hget h).coherent

theorem Coherent.answer (hs : s.Coherent) {request : Request NodeId} {id : NodeId}
    (h : s.answer request = .ok (id, s')) : s'.Coherent := by
  cases request with
  | token kind text =>
    obtain ⟨n, -, hserves⟩ := token_serves hs h
    exact hserves.coherent
  | flaggedToken kind flags text =>
    obtain ⟨n, -, hserves⟩ := token_serves hs h
    exact hserves.coherent
  | missingToken kind =>
    obtain ⟨n, -, hserves⟩ := missingToken_serves hs h
    exact hserves.coherent
  | node kind flags slots => exact (node_serves hs h).coherent
  | defaultNode kind slots => exact (node_serves hs h).coherent
  | list children => exact (node_serves hs h).coherent
  | diagnose source diagnostics => exact hs.copyWith h
  | annotate source annotations => exact hs.copyWith h

theorem Coherent.serve (hs : s.Coherent) {call : Cache.Call} (hcall : call.isOffer = false) :
    (s.serve call).Coherent := by
  cases call with
  | probe arena key => exact hs.probe arena key
  | offer id hash => cases hcall
  | clear => exact hs.clear

theorem Coherent.act (hs : s.Coherent) (haction : action.isOffer = false)
    (h : s.act action = .ok (id?, s')) : s'.Coherent := by
  obtain ⟨asked, id, rfl, -, hanswer⟩ | ⟨call, rfl, -, rfl⟩ := Action.perform_cases h
  · exact hs.answer hanswer
  · exact hs.serve haction

end Store
end GreenTree
