import GreenTree.Proofs.Store.Grounding
import GreenTree.Proofs.Store.TokenIdentity

/-!
# What replies leave behind

A request is answered without storing anything, or by storing the node that it asks for. So every
node of the arena was stored for one of the replies, and while only known ids are passed, the arena
knew its children before.
-/

namespace GreenTree

/-- The node that a request asks for, unless it asks for a copy of an unknown one. -/
def Arena.node? (arena : Arena) : Request NodeId → Option Node
  | .token kind text => (Node.token kind (.ofToken .present) text).toOption
  | .flaggedToken kind flags text => (Node.token kind flags.ofToken text).toOption
  | .missingToken kind => (Node.token kind .none "").toOption
  | .node kind flags slots => some (Store.assemble arena ⟨kind, flags.undecorated, slots⟩)
  | .defaultNode kind slots =>
    some (Store.assemble arena ⟨kind, Flags.undecorated .present, slots⟩)
  | .list children =>
    some (Store.assemble arena ⟨.list, Flags.undecorated .present, children.map some⟩)
  | .diagnose source diagnostics => (arena.get? source).map (·.diagnose diagnostics)
  | .annotate source annotations => (arena.get? source).map (·.annotate annotations)

namespace Reply

/-- All children that the request asks for a node over were known. -/
def overKnown (r : Reply) : Bool := Action.overKnown r.before (.request r.asked)

/-- The node was stored for this reply. -/
def Stores (r : Reply) (n : Node) : Prop :=
  r.before.arena.node? r.asked = some n ∧ r.before.arena.store n = .ok (r.id, r.after.arena)

end Reply

theorem Node.token_of_toOption {kind : Kind} {flags : Flags} {text : String} {n : Node}
    (h : (Node.token kind flags text).toOption = some n) : Node.token kind flags text = .ok n := by
  cases htoken : Node.token kind flags text with
  | error fault =>
    rw [htoken] at h
    cases h
  | ok m =>
    rw [htoken] at h
    cases h
    rfl

namespace Arena

variable {arena : Arena} {asked : Request NodeId} {n : Node}

theorem node?_of_key? {key : NodeKey} (h : asked.key? = some key) :
    arena.node? asked = some (Store.assemble arena key) := by
  cases asked <;> cases h <;> rfl

/-- What is asked for over known children is founded. -/
theorem founded_of_node? (hn : arena.node? asked = some n)
    (harena : ∀ id m, arena.get? id = some m → m.Founded arena)
    (hknown : asked.key?.all (fun key => key.children.all arena.contains) = true) :
    n.Founded arena := by
  rcases hkey : asked.key? with _ | key
  · apply Node.Made.founded _ harena
    cases asked with
    | token _ _ => exact .token (Node.token_of_toOption hn)
    | flaggedToken _ _ _ => exact .token (Node.token_of_toOption hn)
    | missingToken kind =>
      change (Node.token kind .none "").toOption = some n at hn
      exact .token (Node.token_of_toOption hn)
    | node _ _ _ | defaultNode _ _ | list _ => cases hkey
    | diagnose source diagnostics =>
      obtain ⟨m, hm, rfl⟩ := Option.map_eq_some_iff.mp hn
      exact .diagnosed hm diagnostics
    | annotate source annotations =>
      obtain ⟨m, hm, rfl⟩ := Option.map_eq_some_iff.mp hn
      exact .annotated hm annotations
  · rw [node?_of_key? hkey] at hn
    cases hn
    apply Node.founded_assemble
    intro child hchild
    rw [hkey, Option.all_some, List.all_eq_true] at hknown
    exact Option.isSome_iff_exists.mp (hknown child hchild)

end Arena

namespace Store

variable {s s' : Store} {asked : Request NodeId} {id : NodeId} {n m : Node}

theorem stores_of_store {n : Node} (hn : s.arena.node? asked = some n)
    (h : s.store n = .ok (id, s')) : Reply.Stores ⟨s, asked, id, s'⟩ n := by
  obtain ⟨arena, hstore, rfl⟩ := store_eq_ok h
  exact ⟨hn, hstore⟩

theorem copyWith_cases {source : NodeId} {change : Node → Node}
    (h : s.copyWith source change = .ok (id, s')) :
    (s.arena.get? source = none ∧ id = source ∧ s' = s) ∨
      ∃ n, s.arena.get? source = some n ∧ s.store (change n) = .ok (id, s') := by
  rw [copyWith, Store.get?] at h
  rcases hget : s.arena.get? source with _ | n
  · rw [hget] at h
    cases h
    exact .inl ⟨rfl, rfl, rfl⟩
  · rw [hget] at h
    exact .inr ⟨n, rfl, h⟩

theorem kept_or_stores_of_token {kind : Kind} {flags : Flags} {text : String}
    (hasked : s.arena.node? asked = (Node.token kind flags.ofToken text).toOption)
    (h : s.token kind flags text = .ok (id, s')) :
    s'.arena = s.arena ∨ ∃ n, Reply.Stores ⟨s, asked, id, s'⟩ n := by
  obtain ⟨-, rfl⟩ | ⟨-, n, arena, hn, hstore, rfl⟩ := token_cases h
  · exact .inl rfl
  · rw [hn] at hasked
    exact .inr ⟨n, hasked, hstore⟩

theorem kept_or_stores_of_copyWith {source : NodeId} {change : Node → Node}
    (hasked : s.arena.node? asked = (s.arena.get? source).map change)
    (h : s.copyWith source change = .ok (id, s')) :
    s'.arena = s.arena ∨ ∃ n, Reply.Stores ⟨s, asked, id, s'⟩ n := by
  obtain ⟨-, -, rfl⟩ | ⟨n, hget, hstore⟩ := copyWith_cases h
  · exact .inl rfl
  · rw [hget] at hasked
    exact .inr ⟨change n, stores_of_store hasked hstore⟩

theorem kept_or_stores_of_node {kind : Kind} {flags : Flags} {slots : List (Option NodeId)}
    (hasked : s.arena.node? asked = some (assemble s.arena ⟨kind, flags.undecorated, slots⟩))
    (h : s.node kind flags slots = .ok (id, s')) :
    s'.arena = s.arena ∨ ∃ n, Reply.Stores ⟨s, asked, id, s'⟩ n := by
  obtain ⟨-, -, -, rfl⟩ | ⟨arena, hstore, rfl | ⟨-, -, rfl⟩⟩ := node_cases h
  · exact .inl rfl
  · exact .inr ⟨_, hasked, hstore⟩
  · exact .inr ⟨_, hasked, hstore⟩

/-- A request is answered without storing anything, or by storing the node it asks for. -/
theorem kept_or_stores_of_answer (h : s.answer asked = .ok (id, s')) :
    s'.arena = s.arena ∨ ∃ n, Reply.Stores ⟨s, asked, id, s'⟩ n := by
  cases asked with
  | token kind text => exact kept_or_stores_of_token rfl h
  | flaggedToken kind flags text => exact kept_or_stores_of_token rfl h
  | missingToken kind =>
    change s.missingToken kind = _ at h
    rw [missingToken, Outcome.bind_eq_ok_iff] at h
    obtain ⟨n, hn, hstore⟩ := h
    refine .inr ⟨n, stores_of_store ?_ hstore⟩
    rw [Arena.node?, hn]
    rfl
  | node kind flags slots => exact kept_or_stores_of_node rfl h
  | defaultNode kind slots => exact kept_or_stores_of_node rfl h
  | list children => exact kept_or_stores_of_node rfl h
  | diagnose source diagnostics => exact kept_or_stores_of_copyWith rfl h
  | annotate source annotations => exact kept_or_stores_of_copyWith rfl h

theorem key_of_node {kind : Kind} {flags : Flags} {slots : List (Option NodeId)}
    (h : s.node kind flags slots = .ok (id, s')) : ∃ n, s'.arena.get? id = some n ∧
      n.key = (assemble s.arena ⟨kind, flags.undecorated, slots⟩).key := by
  obtain ⟨effective, heffective, hfound, rfl⟩ | ⟨arena, hstore, hs'⟩ := node_cases h
  · obtain ⟨-, n, hget, hkey⟩ := Cache.lookup?_eq_some_iff.mp hfound
    exact ⟨n, hget, hkey.trans (effective?_eq_some heffective).1⟩
  · refine ⟨_, ?_, rfl⟩
    obtain rfl | ⟨-, -, rfl⟩ := hs' <;> exact Arena.get?_stored hstore

theorem key_of_token {kind : Kind} {flags : Flags} {text : String}
    (hs : s.tokens.Coherent s.arena) (h : s.token kind flags text = .ok (id, s'))
    (hm : (Node.token kind flags.ofToken text).toOption = some m) :
    ∃ n, s'.arena.get? id = some n ∧ n.key = m.key := by
  obtain ⟨-, n, hn, hget⟩ := token_coherent hs h
  rw [hn] at hm
  cases hm
  exact ⟨m, hget, rfl⟩

theorem key_of_copyWith {source : NodeId} {change : Node → Node}
    (h : s.copyWith source change = .ok (id, s'))
    (hm : (s.arena.get? source).map change = some m) :
    ∃ n, s'.arena.get? id = some n ∧ n.key = m.key := by
  obtain ⟨hnone, -, -⟩ | ⟨n, hget, hstore⟩ := copyWith_cases h
  · rw [hnone] at hm
    cases hm
  · rw [hget] at hm
    cases hm
    exact ⟨change n, (stored_of_store hstore).2, rfl⟩

/-- The node that is answered with has the key of the node that was asked for. -/
theorem key_of_answer (hs : s.tokens.Coherent s.arena) (h : s.answer asked = .ok (id, s'))
    (hm : s.arena.node? asked = some m) : ∃ n, s'.arena.get? id = some n ∧ n.key = m.key := by
  cases asked with
  | token kind text => exact key_of_token hs h hm
  | flaggedToken kind flags text => exact key_of_token hs h hm
  | missingToken kind =>
    change s.missingToken kind = _ at h
    change (Node.token kind .none "").toOption = some m at hm
    rw [missingToken, Node.token_of_toOption hm] at h
    exact ⟨m, (stored_of_store h).2, rfl⟩
  | node kind flags slots =>
    cases hm
    exact key_of_node h
  | defaultNode kind slots =>
    cases hm
    exact key_of_node h
  | list children =>
    cases hm
    exact key_of_node h
  | diagnose source diagnostics => exact key_of_copyWith h hm
  | annotate source annotations => exact key_of_copyWith h hm

/-- While only known ids are passed, the arena is grounded before every reply and in the end. What
holds of every node when it is stored, told of the replies so far, and goes on to hold, then holds
of all nodes in the end. -/
theorem attend_nodes (instanceNumber : ℕ) (cache : Cache) {events : List Event}
    (Q : List Reply → Arena → NodeId → Node → Prop)
    (hlater : ∀ past past' a b id n, past ⊆ past' → a.Extends b → n.Founded a → Q past a id n →
      Q past' b id n)
    (hnew : ∀ past (r : Reply) n, r ∈ past → r.Stores n → n.Founded r.before.arena →
      (∀ id m, r.before.arena.get? id = some m → Q past r.before.arena id m) →
      Q past r.before.arena r.id n)
    (hknown : ∀ r ∈ ((ofCache instanceNumber cache).attend events).1, r.overKnown = true) :
    let replies := ((ofCache instanceNumber cache).attend events).1
    let last := ((ofCache instanceNumber cache).attend events).2
    (∀ r ∈ replies, ∃ rank, r.before.arena.Grounded rank) ∧
      (∃ rank, last.arena.Grounded rank) ∧
      ∀ id n, last.arena.get? id = some n → Q replies last.arena id n := by
  intro replies last
  refine attend_induction (fun past s =>
    (∀ r ∈ past, ∃ rank, r.before.arena.Grounded rank) ∧ (∃ rank, s.arena.Grounded rank) ∧
      ∀ id n, s.arena.get? id = some n → Q past s.arena id n)
    ?_ (fun _ _ _ _ hs => hs) ?_
  · refine ⟨by simp, ⟨fun _ => 0, Arena.grounded_empty _⟩, ?_⟩
    intro id n hget
    simp [ofCache, Arena.get?, Arena.empty, Vector.get] at hget
  · rintro past r hr ⟨hpast, ⟨rank, hground⟩, hnodes⟩ hanswer
    have hover := hknown r hr
    have hchange := change_of_answer hanswer
    refine ⟨?_, hchange.grounded hover hground, ?_⟩
    · rw [List.forall_mem_append, List.forall_mem_singleton]
      exact ⟨hpast, rank, hground⟩
    intro id n hget
    have hmore : past ⊆ past ++ [r] := List.subset_append_left past [r]
    have hold : r.before.arena.get? id = some n → Q (past ++ [r]) r.after.arena id n := fun hget =>
      hlater _ _ _ _ id n hmore hchange.extends (hground.founded id n hget) (hnodes id n hget)
    obtain hkept | ⟨m, hasked, hstore⟩ := kept_or_stores_of_answer hanswer
    · exact hold (hkept ▸ hget)
    · obtain ⟨rfl, rfl⟩ | hget := Arena.new_or_known_of_store hstore hget
      · have hfounded := Arena.founded_of_node? hasked hground.founded hover
        refine hlater _ _ _ _ _ n (List.Subset.refl _) hchange.extends hfounded ?_
        refine hnew _ r n (by simp) ⟨hasked, hstore⟩ hfounded fun id m hget => ?_
        exact hlater _ _ _ _ id m hmore (.refl _) (hground.founded id m hget) (hnodes id m hget)
      · exact hold hget

/-- While only known ids are passed, the arena stays grounded, and every node was stored for a
reply before which its children were known. -/
theorem attend_founded (instanceNumber : ℕ) (cache : Cache) {events : List Event}
    (hknown : ∀ r ∈ ((ofCache instanceNumber cache).attend events).1, r.overKnown = true) :
    let replies := ((ofCache instanceNumber cache).attend events).1
    let last := ((ofCache instanceNumber cache).attend events).2
    (∃ rank, last.arena.Grounded rank) ∧ ∀ id n, last.arena.get? id = some n →
      ∃ r ∈ replies, r.id = id ∧ r.Stores n ∧ n.Founded r.before.arena := by
  apply (attend_nodes instanceNumber cache (fun past _ id n =>
    ∃ r ∈ past, r.id = id ∧ r.Stores n ∧ n.Founded r.before.arena) ?_ ?_ hknown).2
  · rintro past past' a b id n hmore - - ⟨r, hr, hn⟩
    exact ⟨r, hmore hr, hn⟩
  · intro past r n hr hstores hfounded _
    exact ⟨r, hr, rfl, hstores, hfounded⟩

end Store
end GreenTree
