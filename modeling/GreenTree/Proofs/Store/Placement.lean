import GreenTree.Proofs.Store.Precedence
import GreenTree.Proofs.Store.Residency

/-!
# Placing a tree a second time

A parser places a tree in a store from the leaves up and from left to right. When it places the same
tree again, every token is found in the table and every node that is still resident is found in the
cache, by induction on the tree: the ids below are the same, so the key is the same.
-/

namespace GreenTree

/-- A tree to be placed in a store. -/
inductive Outline where
  | token (kind : Kind) (flags : Flags) (text : String)
  | node (kind : Kind) (flags : Flags) (slots : List (Option Outline))

/-- The ids at the positions of a tree. -/
inductive Placement where
  | token (id : NodeId)
  | node (id : NodeId) (slots : List (Option Placement))

namespace Placement

def id : Placement → NodeId
  | token id | node id _ => id

mutual

/-- The ids that node requests were answered with. -/
def nodeIds : Placement → List NodeId
  | token _ => []
  | node id slots => id :: slotIds slots

def slotIds : List (Option Placement) → List NodeId
  | [] => []
  | none :: rest => slotIds rest
  | some placed :: rest => placed.nodeIds ++ slotIds rest

end

end Placement

namespace Store

mutual

/-- Asks for the tokens and nodes of a tree, for each node after what is below it. -/
def place (s : Store) : Outline → Except Fault (Placement × Store)
  | .token kind flags text => do
    let (id, s') ← s.token kind flags text
    pure (.token id, s')
  | .node kind flags slots => do
    let (below, s') ← s.placeSlots slots
    let (id, s'') ← s'.node kind flags (below.map (·.map Placement.id))
    pure (.node id below, s'')

def placeSlots (s : Store) :
    List (Option Outline) → Except Fault (List (Option Placement) × Store)
  | [] => pure ([], s)
  | none :: rest => do
    let (below, s') ← s.placeSlots rest
    pure (none :: below, s')
  | some outline :: rest => do
    let (placed, s') ← s.place outline
    let (below, s'') ← s'.placeSlots rest
    pure (some placed :: below, s'')

end

variable {s s' : Store} {outline : Outline} {placed : Placement} {slots : List (Option Outline)}
  {below : List (Option Placement)} {kind : Kind} {flags : Flags} {text : String}

theorem place_token_eq_ok (h : s.place (.token kind flags text) = .ok (placed, s')) :
    ∃ id, s.token kind flags text = .ok (id, s') ∧ placed = .token id := by
  rw [place, Outcome.bind_eq_ok_iff] at h
  obtain ⟨⟨id, t⟩, htoken, h⟩ := h
  cases h
  exact ⟨id, htoken, rfl⟩

theorem place_node_eq_ok (h : s.place (.node kind flags slots) = .ok (placed, s')) :
    ∃ id below t, s.placeSlots slots = .ok (below, t) ∧
      t.node kind flags (below.map (·.map Placement.id)) = .ok (id, s') ∧
      placed = .node id below := by
  rw [place, Outcome.bind_eq_ok_iff] at h
  obtain ⟨⟨below, t⟩, hslots, h⟩ := h
  rw [Outcome.bind_eq_ok_iff] at h
  obtain ⟨⟨id, u⟩, hnode, h⟩ := h
  cases h
  exact ⟨id, below, t, hslots, hnode, rfl⟩

theorem placeSlots_none_eq_ok (h : s.placeSlots (none :: slots) = .ok (below, s')) :
    ∃ rest, s.placeSlots slots = .ok (rest, s') ∧ below = none :: rest := by
  rw [placeSlots, Outcome.bind_eq_ok_iff] at h
  obtain ⟨⟨rest, t⟩, hslots, h⟩ := h
  cases h
  exact ⟨rest, hslots, rfl⟩

theorem placeSlots_some_eq_ok (h : s.placeSlots (some outline :: slots) = .ok (below, s')) :
    ∃ placed t rest, s.place outline = .ok (placed, t) ∧ t.placeSlots slots = .ok (rest, s') ∧
      below = some placed :: rest := by
  rw [placeSlots, Outcome.bind_eq_ok_iff] at h
  obtain ⟨⟨placed, t⟩, hplace, h⟩ := h
  rw [Outcome.bind_eq_ok_iff] at h
  obtain ⟨⟨rest, u⟩, hslots, h⟩ := h
  cases h
  exact ⟨placed, t, rest, hplace, hslots, rfl⟩

mutual

/-- What every request preserves, placing a tree preserves. -/
theorem place_induction (P : Store → Prop)
    (hstep : ∀ s request id s', P s → Store.answer s request = .ok (id, s') → P s') {s s' : Store} :
    {outline : Outline} → {placed : Placement} → s.place outline = .ok (placed, s') → P s → P s'
  | .token kind flags text, _, h, hs => by
    obtain ⟨id, htoken, -⟩ := place_token_eq_ok h
    exact hstep s (.flaggedToken kind flags text) id s' hs htoken
  | .node kind flags slots, _, h, hs => by
    obtain ⟨id, below, t, hslots, hnode, -⟩ := place_node_eq_ok h
    exact hstep t (.node kind flags _) id s' (placeSlots_induction P hstep hslots hs) hnode

theorem placeSlots_induction (P : Store → Prop)
    (hstep : ∀ s request id s', P s → Store.answer s request = .ok (id, s') → P s') {s s' : Store} :
    {slots : List (Option Outline)} → {below : List (Option Placement)} →
      s.placeSlots slots = .ok (below, s') → P s → P s'
  | [], _, h, hs => by
    cases h
    exact hs
  | none :: slots, _, h, hs => by
    obtain ⟨rest, hslots, -⟩ := placeSlots_none_eq_ok h
    exact placeSlots_induction P hstep hslots hs
  | some outline :: slots, _, h, hs => by
    obtain ⟨placed, t, rest, hplace, hslots, -⟩ := placeSlots_some_eq_ok h
    exact placeSlots_induction P hstep hslots (place_induction P hstep hplace hs)

end

theorem precedes_of_node {id : NodeId} {slots : List (Option NodeId)}
    (h : s.node kind flags slots = .ok (id, s')) : s.Precedes s' := by
  have hanswer : s.answer (.node kind flags slots) = .ok (id, s') := h
  exact precedes_of_answer hanswer

theorem Tidy.answer (hs : s.Tidy) {request : Request NodeId} {id : NodeId}
    (h : s.answer request = .ok (id, s')) : s'.Tidy :=
  hs.act rfl (act_of_answer h)

theorem Tidy.place (hs : s.Tidy) (h : s.place outline = .ok (placed, s')) : s'.Tidy :=
  place_induction Tidy (fun _ _ _ _ hs h => hs.answer h) h hs

theorem Tidy.placeSlots (hs : s.Tidy) (h : s.placeSlots slots = .ok (below, s')) : s'.Tidy :=
  placeSlots_induction Tidy (fun _ _ _ _ hs h => hs.answer h) h hs

theorem precedes_of_placeSlots (h : s.placeSlots slots = .ok (below, s')) : s.Precedes s' :=
  placeSlots_induction s.Precedes (fun _ _ _ _ ht h => ht.trans (precedes_of_answer h)) h (.refl s)

theorem exists_node_of_place (hs : s.Tidy) (h : s.place outline = .ok (placed, s')) :
    ∃ n, s'.arena.get? placed.id = some n := by
  cases outline with
  | token kind flags text =>
    obtain ⟨id, htoken, rfl⟩ := place_token_eq_ok h
    obtain ⟨n, -, hserves⟩ := token_serves hs.coherent htoken
    exact ⟨n, hserves.get?⟩
  | node kind flags slots =>
    obtain ⟨id, below, t, hslots, hnode, rfl⟩ := place_node_eq_ok h
    exact ⟨_, (node_serves (hs.placeSlots hslots).coherent hnode).get?⟩

theorem exists_node_of_placeSlots (hs : s.Tidy) (h : s.placeSlots slots = .ok (below, s')) :
    ∀ child, some child ∈ below.map (·.map Placement.id) →
      ∃ n, s'.arena.get? child = some n := by
  induction slots generalizing s below with
  | nil =>
    cases h
    simp
  | cons slot slots ih =>
    intro child hchild
    cases slot with
    | none =>
      obtain ⟨rest, hslots, rfl⟩ := placeSlots_none_eq_ok h
      rw [List.map_cons, List.mem_cons] at hchild
      exact ih hs hslots child (hchild.resolve_left (by simp))
    | some outline =>
      obtain ⟨placed, t, rest, hplace, hslots, rfl⟩ := placeSlots_some_eq_ok h
      obtain heq | hrest := List.mem_cons.mp hchild
      · cases heq
        obtain ⟨n, hn⟩ := exists_node_of_place hs hplace
        exact ⟨n, (precedes_of_placeSlots hslots).arena _ n hn⟩
      · exact ih (hs.place hplace) hslots child hrest

/-- The stores differ in the counters of their caches only. -/
def Agrees (s t : Store) : Prop := ∃ counters, t = { s with cache := { s.cache with counters } }

theorem Tidy.agrees {t : Store} (hs : s.Tidy) (h : s.Agrees t) : t.Tidy := by
  obtain ⟨counters, rfl⟩ := h
  exact ⟨⟨hs.coherent.tokens, hs.coherent.cache⟩, ⟨hs.sound.formed, hs.sound.entry⟩, hs.cache⟩

theorem Agrees.probe {t : Store} (h : s.Agrees t) (key : NodeKey) :
    s.Agrees { t with cache := (t.cache.probe t.arena key).2 } := by
  obtain ⟨_, rfl⟩ := h
  obtain ⟨counters, hprobe⟩ := Cache.Agrees.probe { s.cache with counters := _ } s.arena key
  exact ⟨counters, by rw [hprobe]⟩

/-- A token that has been asked for is found in every later state. -/
theorem token_again {final again : Store} {id : NodeId} (h : s.token kind flags text = .ok (id, s'))
    (hlater : s'.Precedes final) (hagain : final.Agrees again) :
    again.token kind flags text = .ok (id, again) := by
  have hfind := hlater.tokens _ id (find?_token h).1
  obtain ⟨counters, rfl⟩ := hagain
  simp only [token, hfind]
  rfl

/-- A node that has been asked for over known ids is found in every later state in which it is
resident. -/
theorem node_again {final again : Store} {id : NodeId} {ids : List (Option NodeId)} (hs : s.Tidy)
    (hfinal : final.Tidy) (h : s.node kind flags ids = .ok (id, s'))
    (hknown : ∀ child, some child ∈ ids → ∃ n, s.arena.get? child = some n)
    (hlater : s'.Precedes final) (hagain : final.Agrees again)
    (hresident : final.cache.isResident final.arena id = true) :
    ∃ t, again.node kind flags ids = .ok (id, t) ∧ final.Agrees t := by
  have hserves := node_serves hs.coherent h
  have hkey : (assemble s.arena ⟨kind, flags.undecorated, ids⟩).key =
      final.arena.effectiveKey ⟨kind, flags.undecorated, ids⟩ := by
    rw [← assemble_of_extends (hserves.step.extends.trans hlater.arena) fun child hchild =>
      hknown child (NodeKey.mem_children_iff.mp hchild), key_assemble]
  have htidy := hfinal.agrees hagain
  have hprobe := hagain.probe ⟨kind, flags.undecorated, ids⟩
  obtain ⟨counters, rfl⟩ := hagain
  exact ⟨_, node_of_isResident htidy (hlater.arena id _ hserves.get?) hresident hkey, hprobe⟩

mutual

theorem place_again {s s' final again : Store} (hs : s.Tidy) (hfinal : final.Tidy)
    (hlater : s'.Precedes final) (hagain : final.Agrees again) :
    {outline : Outline} → {placed : Placement} → s.place outline = .ok (placed, s') →
      (∀ id ∈ placed.nodeIds, final.cache.isResident final.arena id = true) →
      ∃ t, again.place outline = .ok (placed, t) ∧ final.Agrees t
  | .token kind flags text, _, h, _ => by
    obtain ⟨id, htoken, rfl⟩ := place_token_eq_ok h
    refine ⟨again, ?_, hagain⟩
    rw [place, token_again htoken hlater hagain]
    rfl
  | .node kind flags slots, _, h, hresident => by
    obtain ⟨id, below, t, hslots, hnode, rfl⟩ := place_node_eq_ok h
    obtain ⟨hid, hbelow⟩ := List.forall_mem_cons.mp hresident
    have hmiddle : t.Precedes s' := precedes_of_node hnode
    obtain ⟨u, hu, hagrees⟩ :=
      placeSlots_again hs hfinal (hmiddle.trans hlater) hagain hslots hbelow
    obtain ⟨v, hv, hagrees⟩ := node_again (hs.placeSlots hslots) hfinal hnode
      (exists_node_of_placeSlots hs hslots) hlater hagrees hid
    refine ⟨v, ?_, hagrees⟩
    simp only [place, hu, hv, Outcome.ok_bind]
    rfl

theorem placeSlots_again {s s' final again : Store} (hs : s.Tidy) (hfinal : final.Tidy)
    (hlater : s'.Precedes final) (hagain : final.Agrees again) :
    {slots : List (Option Outline)} → {below : List (Option Placement)} →
      s.placeSlots slots = .ok (below, s') →
      (∀ id ∈ Placement.slotIds below, final.cache.isResident final.arena id = true) →
      ∃ t, again.placeSlots slots = .ok (below, t) ∧ final.Agrees t
  | [], _, h, _ => by
    cases h
    exact ⟨again, rfl, hagain⟩
  | none :: slots, _, h, hresident => by
    obtain ⟨rest, hslots, rfl⟩ := placeSlots_none_eq_ok h
    obtain ⟨t, ht, hagrees⟩ := placeSlots_again hs hfinal hlater hagain hslots hresident
    refine ⟨t, ?_, hagrees⟩
    simp only [placeSlots, ht, Outcome.ok_bind]
    rfl
  | some outline :: slots, _, h, hresident => by
    obtain ⟨placed, t, rest, hplace, hslots, rfl⟩ := placeSlots_some_eq_ok h
    obtain ⟨hfirst, hrest⟩ := List.forall_mem_append.mp hresident
    obtain ⟨u, hu, hagrees⟩ := place_again hs hfinal
      ((precedes_of_placeSlots hslots).trans hlater) hagain hplace hfirst
    obtain ⟨v, hv, hagrees⟩ :=
      placeSlots_again (hs.place hplace) hfinal hlater hagrees hslots hrest
    refine ⟨v, ?_, hagrees⟩
    simp only [placeSlots, hu, hv, Outcome.ok_bind]
    rfl

end

/-- Placing a tree a second time finds every node again that is still resident: if all of them are,
the ids are the same at every position, and the store is the same but for the counters of its
cache. -/
theorem placed_again_without_change (instanceNumber sizeBits : ℕ) {actions : List Action}
    (hactions : ∀ action ∈ actions, action.isOffer = false) {outline : Outline}
    {placed : Placement} {t : Store}
    (hplaced : ((ofCache instanceNumber (.ofBits sizeBits)).run actions).place outline =
      .ok (placed, t))
    (hresident : ∀ id ∈ placed.nodeIds, t.cache.isResident t.arena id = true) :
    ∃ counters, t.place outline = .ok (placed, { t with cache := { t.cache with counters } }) := by
  have hs := (tidy_ofBits instanceNumber sizeBits).run hactions
  obtain ⟨u, hu, counters, rfl⟩ :=
    place_again hs (hs.place hplaced) (.refl t) ⟨t.cache.counters, rfl⟩ hplaced hresident
  exact ⟨counters, hu⟩

/-- The flags that the node without slots passes up are part of the key of the node over it. -/
theorem placed_again_without_change_nested :
    let actions : List Action := [.request (.token ⟨10⟩ "x"), .onCache .clear]
    let outline : Outline :=
      .node ⟨21⟩ .present [some (.token ⟨12⟩ .present "("),
        some (.node ⟨21⟩ .present [some (.token ⟨10⟩ .asyncContext "x"), none]),
        some (.node ⟨22⟩ (.present ||| .containsSkippedText) [])]
    (∀ action ∈ actions, action.isOffer = false) ∧ ∃ placed t counters,
      ((ofCache 1 (.ofBits 4)).run actions).place outline = .ok (placed, t) ∧
        placed.nodeIds.length = 3 ∧
        (∀ id ∈ placed.nodeIds, t.cache.isResident t.arena id = true) ∧
        t.place outline = .ok (placed, { t with cache := { t.cache with counters } }) := by
  intro actions outline
  have hactions : ∀ action ∈ actions, action.isOffer = false := by decide
  obtain ⟨⟨placed, t⟩, hplaced, htest⟩ := Outcome.exists_of_passes
    (show Outcome.passes (((ofCache 1 (.ofBits 4)).run actions).place outline) (fun answer =>
      answer.1.nodeIds.length == 3 &&
        answer.1.nodeIds.all (answer.2.cache.isResident answer.2.arena)) = true by
      decide +kernel)
  simp only [Bool.and_eq_true, beq_iff_eq, List.all_eq_true] at htest
  obtain ⟨counters, hagain⟩ := placed_again_without_change 1 4 hactions hplaced htest.2
  exact ⟨hactions, placed, t, counters, hplaced, htest.1, htest.2, hagain⟩

end Store
end GreenTree
