import GreenTree.Proofs.Store.Actions

/-!
# Reuse is invisible

A client whose store shares tokens and reuses nodes mirrors the ledger of its requests: handle by
handle the labels are the same, and the slots refer to the same handles. One request preserves this
whatever the store answers with. Two runs with caches of their own therefore mirror one ledger, and
their handles stand for the same trees.
-/

namespace GreenTree

theorem Node.label_of_token {kind : Kind} {flags : Flags} {text : String} {n : Node}
    (h : Node.token kind flags text = .ok n) :
    n.label = .token kind flags text ∧ n.slots = [] := by
  rw [Node.token] at h
  split_ifs at h
  cases h
  exact ⟨rfl, rfl⟩

theorem Store.label_assemble (arena : Arena) (key : NodeKey) :
    (assemble arena key).label =
      .interior key.kind key.flags ((arena.known key.children).map Node.label) := by
  rw [assemble_eq, Label.interior, List.foldl_map, List.foldl_map]
  rfl

namespace Client

/-- The client has the handles of the ledger: each names a node with the label of its record, and
with the handles of that record in its slots. -/
structure Mirrors (c : Client) (l : Ledger) : Prop where
  coherent : c.store.Coherent
  backward : l.Scoped
  length_eq : c.handles.length = l.records.length
  node : ∀ (i : ℕ) (id : NodeId) (record : Record), c.handles[i]? = some id →
    l.records[i]? = some record → ∃ n, c.store.arena.get? id = some n ∧
      n.label = record.label ∧ n.slots = record.slots.map (·.map c.handle)
  shards : c.store.arena.ShardsWithin c.handles.length

variable {c : Client} {l : Ledger}

theorem mirrors_start (instanceNumber sizeBits : ℕ) :
    (start instanceNumber sizeBits).Mirrors ⟨[]⟩ where
  coherent := Store.coherent_ofBits instanceNumber sizeBits
  backward := by simp [Ledger.Scoped]
  length_eq := rfl
  node := by simp
  shards := Arena.shardsWithin_empty

theorem getElem?_handle (c : Client) {i : ℕ} (h : i < c.handles.length) :
    c.handles[i]? = some (c.handle i) := by
  rw [handle, List.getD_eq_getElem?_getD, List.getElem?_eq_getElem h, Option.getD_some]

theorem handle_append (c : Client) (s : Store) (id : NodeId) {i : ℕ} (h : i < c.handles.length) :
    (Client.mk s (c.handles ++ [id])).handle i = c.handle i := by
  rw [handle, handle, List.getD_eq_getElem?_getD, List.getD_eq_getElem?_getD,
    List.getElem?_append_left h]

namespace Mirrors

/-- A handle below the bound names a node that looks like the record with its number. -/
theorem exists_node (h : c.Mirrors l) {i : ℕ} (hi : i < c.handles.length) :
    ∃ n record, c.store.arena.get? (c.handle i) = some n ∧ l.records[i]? = some record ∧
      n.label = record.label ∧ n.slots = record.slots.map (·.map c.handle) := by
  have hrecord := List.getElem?_eq_getElem (h.length_eq ▸ hi)
  obtain ⟨n, hget, hlabel, hslots⟩ := h.node i _ _ (c.getElem?_handle hi) hrecord
  exact ⟨n, _, hget, hrecord, hlabel, hslots⟩

theorem labels_known (h : c.Mirrors l) {positions : List ℕ}
    (hpositions : ∀ i ∈ positions, i < c.handles.length) :
    (c.store.arena.known (positions.map c.handle)).map Node.label = l.labels positions := by
  rw [Arena.known, List.filterMap_map, List.map_filterMap, Ledger.labels]
  apply List.filterMap_congr
  intro i hi
  obtain ⟨n, record, hget, hrecord, hlabel, -⟩ := h.exists_node (hpositions i hi)
  rw [Function.comp_apply, hget, hrecord, Option.map_some, Option.map_some, hlabel]

/-- A node that looks like a new record may be answered for it. -/
theorem append (h : c.Mirrors l) {s : Store} {id : NodeId} {n : Node} {record : Record}
    (hserves : c.store.Serves s id n) (hlabel : n.label = record.label)
    (hslots : n.slots = record.slots.map (·.map c.handle))
    (hbelow : ∀ child, some child ∈ record.slots → child < l.records.length) :
    Mirrors ⟨s, c.handles ++ [id]⟩ ⟨l.records ++ [record]⟩ := by
  have hstable : ∀ slots : List (Option ℕ), (∀ child, some child ∈ slots →
      child < c.handles.length) → slots.map (·.map (Client.mk s (c.handles ++ [id])).handle) =
        slots.map (·.map c.handle) := by
    intro slots hlt
    apply List.map_congr_left
    intro slot hslot
    cases slot with
    | none => rfl
    | some child => exact congrArg some (c.handle_append s id (hlt child hslot))
  refine ⟨hserves.coherent, h.backward.append hbelow, by simp [h.length_eq], ?_, ?_⟩
  · intro i other made hother hmade
    obtain hlt | rfl | hgt := lt_trichotomy i c.handles.length
    · have hlt' := h.length_eq ▸ hlt
      rw [List.getElem?_append_left hlt] at hother
      rw [List.getElem?_append_left hlt'] at hmade
      obtain ⟨m, hget, hm, hmslots⟩ := h.node i other made hother hmade
      refine ⟨m, hserves.step.extends other m hget, hm, ?_⟩
      rw [hmslots, hstable]
      intro child hchild
      exact (h.backward i made hmade child hchild).trans hlt
    · rw [List.getElem?_concat_length, Option.some.injEq] at hother
      rw [h.length_eq, List.getElem?_concat_length, Option.some.injEq] at hmade
      subst hother hmade
      refine ⟨n, hserves.get?, hlabel, ?_⟩
      rw [hslots, hstable]
      exact h.length_eq ▸ hbelow
    · rw [List.getElem?_eq_none (by simpa using hgt)] at hother
      cases hother
  · rw [List.length_append, List.length_singleton]
    exact hserves.step.shardsWithin h.shards

theorem append_token (h : c.Mirrors l) {s : Store} {id : NodeId} {kind : Kind} {flags : Flags}
    {text : String} (hserves : ∃ n, Node.token kind flags text = .ok n ∧ c.store.Serves s id n) :
    Mirrors ⟨s, c.handles ++ [id]⟩ ⟨l.records ++ [⟨.token kind flags text, []⟩]⟩ := by
  obtain ⟨n, hn, hserves⟩ := hserves
  obtain ⟨hlabel, hslots⟩ := Node.label_of_token hn
  exact h.append hserves hlabel hslots (by simp)

theorem append_node (h : c.Mirrors l) {s : Store} {made : NodeId} {kind : Kind} {flags : Flags}
    {slots : List (Option ℕ)} (hslots : ∀ i ∈ slots.filterMap id, i < c.handles.length)
    (hanswer : c.store.node kind flags (slots.map (·.map c.handle)) = .ok (made, s)) :
    Mirrors ⟨s, c.handles ++ [made]⟩ ⟨l.records ++ [l.interior kind flags.undecorated slots]⟩ := by
  have hserves := Store.node_serves h.coherent hanswer
  have hchildren : NodeKey.children ⟨kind, flags.undecorated, slots.map (·.map c.handle)⟩ =
      (slots.filterMap id).map c.handle := by
    rw [NodeKey.children, List.filterMap_map, List.map_filterMap]
    rfl
  refine h.append hserves ?_ ?_ ?_
  · rw [Store.label_assemble, hchildren, h.labels_known hslots]
    rfl
  · rw [Node.slots, Store.key_assemble]
    rfl
  · intro child hchild
    rw [← h.length_eq]
    exact hslots child (List.mem_filterMap.mpr ⟨some child, hchild, rfl⟩)

theorem append_copy (h : c.Mirrors l) {s : Store} {id : NodeId} {source : ℕ}
    (hsource : source < c.handles.length) (change : Node → Node) (relabel : Label → Label)
    (hlabel : ∀ n, (change n).label = relabel n.label) (hslots : ∀ n, (change n).slots = n.slots)
    (hanswer : c.store.copyWith (c.handle source) change = .ok (id, s)) :
    Mirrors ⟨s, c.handles ++ [id]⟩ ⟨l.records ++ (l.records[source]?.map fun record =>
      { record with label := relabel record.label }).toList⟩ := by
  obtain ⟨n, record, hget, hrecord, hn, hnslots⟩ := h.exists_node hsource
  have hserves := Store.copyWith_serves h.coherent hget hanswer
  rw [hrecord, Option.map_some]
  refine h.append hserves (by rw [hlabel, hn]) (by rw [hslots, hnslots]) ?_
  intro child hchild
  exact (h.backward source record hrecord child hchild).trans (h.length_eq ▸ hsource)

/-- One request keeps client and ledger alike. -/
theorem enter (h : c.Mirrors l) {request : Request ℕ} {s : Store} {id : NodeId}
    (hids : ∀ i ∈ request.ids, i < c.handles.length)
    (hanswer : c.store.answer (request.map c.handle) = .ok (id, s)) :
    Mirrors ⟨s, c.handles ++ [id]⟩ (l.enter request) := by
  cases request with
  | token kind text => exact h.append_token (Store.token_serves h.coherent hanswer)
  | flaggedToken kind flags text => exact h.append_token (Store.token_serves h.coherent hanswer)
  | missingToken kind => exact h.append_token (Store.missingToken_serves h.coherent hanswer)
  | node kind flags slots => exact h.append_node hids hanswer
  | defaultNode kind slots => exact h.append_node hids hanswer
  | list children =>
    refine h.append_node ?_ ?_
    · simpa [Request.ids, List.filterMap_map] using hids
    · simpa [Request.map, Store.answer, Store.list] using hanswer
  | diagnose source diagnostics =>
    have hsource := hids source (List.mem_singleton_self source)
    exact h.append_copy hsource (·.diagnose diagnostics) (·.diagnose diagnostics) (fun _ => rfl)
      (fun _ => rfl) hanswer
  | annotate source annotations =>
    have hsource := hids source (List.mem_singleton_self source)
    exact h.append_copy hsource (·.annotate annotations) (·.annotate annotations) (fun _ => rfl)
      (fun _ => rfl) hanswer

/-- What happens to the cache between two requests does not matter. -/
theorem with_cache (h : c.Mirrors l) {cache : Cache}
    (hcache : Store.Coherent { c.store with cache }) :
    Mirrors { c with store := { c.store with cache } } l :=
  ⟨hcache, h.backward, h.length_eq, h.node, h.shards⟩

/-- A request is answered while there is room for one more node, if its text is short enough. -/
theorem exists_answer (h : c.Mirrors l) (hroom : c.handles.length ≤ Limits.maxShardIndex)
    {request : Request ℕ} (htext : request.TextFits) :
    ∃ id s, c.store.answer (request.map c.handle) = .ok (id, s) := by
  cases request with
  | token kind text => exact Store.exists_token h.shards hroom kind .present htext
  | flaggedToken kind flags text => exact Store.exists_token h.shards hroom kind flags htext
  | missingToken kind => exact Store.exists_missingToken h.shards hroom kind
  | node kind flags slots => exact Store.exists_node h.shards hroom kind flags _
  | defaultNode kind slots => exact Store.exists_node h.shards hroom kind .present _
  | list children => exact Store.exists_node h.shards hroom .list .present _
  | diagnose source diagnostics => exact Store.exists_copyWith h.shards hroom _ _
  | annotate source annotations => exact Store.exists_copyWith h.shards hroom _ _

/-- One action enters what it asks for. -/
theorem act (h : c.Mirrors l) {action : Call} {id? : Option NodeId} {c' : Client}
    (hids : ∀ asked, action = .request asked → ∀ i ∈ asked.ids, i < c.handles.length)
    (hact : c.act action = .ok (id?, c')) :
    c'.Mirrors ((Action.requests [action]).foldl Ledger.enter l) ∧
      c'.handles.length = c.handles.length + (Action.requests [action]).length := by
  obtain ⟨asked, id, rfl, -, hanswer⟩ | ⟨call, rfl, -, rfl⟩ := Action.perform_cases hact
  · obtain ⟨s, hstore, rfl⟩ := answer_eq_ok hanswer
    exact ⟨h.enter (hids asked rfl) hstore, List.length_append⟩
  · exact ⟨h.with_cache (h.coherent.serve call.property), rfl⟩

/-- A run mirrors the ledger of the requests it served. -/
theorem run {calls : List Call} (h : c.Mirrors l)
    (hscoped : Request.Scoped c.handles.length (Action.requests calls)) :
    (c.run calls).Mirrors ((c.served calls).foldl Ledger.enter l) ∧
      (c.run calls).handles.length = c.handles.length + (c.served calls).length := by
  refine Run.steps_induction (s := c) (fun past t =>
    t.Mirrors ((Action.requests (past.map Step.action)).foldl Ledger.enter l) ∧
      t.handles.length = c.handles.length + (Action.requests (past.map Step.action)).length)
    ⟨h, rfl⟩ ?_
  rintro past before action id? after hsteps hact ⟨hbefore, hlength⟩
  -- What is asked for is one of the requests, so it names earlier answers only.
  obtain ⟨rest, hrest⟩ := (Action.requests_isPrefix (hsteps.map Step.action)).trans
    (c.served_isPrefix calls)
  rw [List.map_append, Action.requests_append, List.append_assoc] at hrest
  have hids : ∀ asked, action = .request asked → ∀ i ∈ asked.ids, i < before.handles.length := by
    rintro asked rfl
    rw [hlength]
    exact Request.Scoped.ids_lt (hrest ▸ hscoped)
  obtain ⟨hafter, hmore⟩ := hbefore.act hids hact
  rw [List.map_append, Action.requests_append, List.foldl_append, List.length_append]
  exact ⟨hafter, by rw [hmore, hlength, Nat.add_assoc]; rfl⟩

/-- All requests are served, if there is room for all nodes and no text is too long. -/
theorem served_eq {calls : List Call} (h : c.Mirrors l)
    (hscoped : Request.Scoped c.handles.length (Action.requests calls))
    (htexts : ∀ request ∈ Action.requests calls, request.TextFits)
    (hroom : c.handles.length + (Action.requests calls).length ≤ Limits.maxShardIndex + 1) :
    c.served calls = Action.requests calls := by
  obtain ⟨hmirrors, hlength⟩ := h.run hscoped
  obtain hall | ⟨action, fault, hnext, hstop⟩ := Run.takes_all_or_stops Client.act c calls
  · rw [served, hall]
  · -- A request that is stopped would have been answered.
    obtain ⟨asked, rfl, hfault⟩ := Action.exists_request_of_fault hstop
    have hrequests := Action.requests_isPrefix hnext
    rw [Action.requests_append] at hrequests
    have hmember : asked ∈ Action.requests calls :=
      hrequests.subset (List.mem_append_right _ List.mem_cons_self)
    have hcount : (c.served calls ++ [asked]).length ≤ _ := hrequests.length_le
    rw [List.length_append, List.length_singleton] at hcount
    obtain ⟨id, s, hanswer⟩ := hmirrors.exists_answer (by omega) (htexts asked hmember)
    rw [← Client.run, answer_of_answer hanswer] at hfault
    cases hfault

/-- The handles of a client look like the positions of any longer ledger. -/
theorem alike (h : c.Mirrors l) {longer : Ledger} (hinitial : l.records <+: longer.records) :
    Tree.Alike (fun i id => c.handles[i]? = some id) longer.layer c.store.arena.layer := by
  intro i id hid
  have hi : i < c.handles.length := (List.getElem?_eq_some_iff.mp hid).1
  obtain ⟨n, record, hget, hrecord, hlabel, hslots⟩ := h.exists_node hi
  have hhandle : c.handle i = id := Option.some.inj ((c.getElem?_handle hi).symm.trans hid)
  rw [hhandle] at hget
  have hlonger : longer.records[i]? = some record := by
    obtain ⟨rest, hrest⟩ := hinitial
    rw [← hrest, List.getElem?_append_left (h.length_eq ▸ hi)]
    exact hrecord
  refine ⟨record.label, record.slots, n.slots, ?_, ?_, ?_⟩
  · rw [Ledger.layer, hlonger, Option.map_some]
  · rw [Arena.layer, hget, Option.map_some, hlabel]
  · rw [hslots, List.forall₂_map_right_iff]
    apply List.forall₂_same.mpr
    intro slot hslot
    cases slot with
    | none => exact .none
    | some child =>
      have hchild : child < i := h.backward i record hrecord child hslot
      exact .some (c.getElem?_handle (hchild.trans hi))

end Mirrors

/-- A run from the start mirrors a part of the ledger of its requests. The part is the whole, if
there is room for all nodes and no text is too long. -/
theorem mirrors_run (instanceNumber sizeBits : ℕ) {calls : List Call}
    (hscoped : Request.Scoped 0 (Action.requests calls)) :
    ∃ l, ((start instanceNumber sizeBits).run calls).Mirrors l ∧
      l.records <+: (Ledger.ofRequests (Action.requests calls)).records ∧
      ((∀ request ∈ Action.requests calls, request.TextFits) →
        (Action.requests calls).length ≤ Limits.maxShardIndex + 1 →
          ((start instanceNumber sizeBits).run calls).handles.length =
            (Action.requests calls).length) := by
  have hstart := mirrors_start instanceNumber sizeBits
  obtain ⟨hrun, hlength⟩ := hstart.run hscoped
  refine ⟨_, hrun, ?_, ?_⟩
  · obtain ⟨rest, hrest⟩ := (start instanceNumber sizeBits).served_isPrefix calls
    rw [Ledger.ofRequests, ← hrest, List.foldl_append]
    exact Ledger.prefix_foldl_enter _ rest
  · intro htexts hroom
    rw [hlength, hstart.served_eq hscoped htexts ((Nat.zero_add _).trans_le hroom)]
    exact Nat.zero_add _

/-- Reuse is invisible. Whatever the sizes of two caches, and however the caches are probed and
emptied in between, equal requests are answered by handles that stand for one tree, and it is the
tree that a store without reuse gives. Only faults cut a run short, and there is none as long as
there is room for all nodes and no text is too long. -/
theorem reuse_is_invisible (instance₁ instance₂ sizeBits₁ sizeBits₂ : ℕ) (calls₁ calls₂ : List Call)
    (hscoped : Request.Scoped 0 (Action.requests calls₁))
    (hsame : (Action.requests calls₁).map Request.unnumbered =
      (Action.requests calls₂).map Request.unnumbered) :
    let ledger := Ledger.ofRequests (Action.requests calls₁)
    let run₁ := (start instance₁ sizeBits₁).run calls₁
    let run₂ := (start instance₂ sizeBits₂).run calls₂
    (∀ i < (Action.requests calls₁).length, ∃! tree, Tree.Unfolds ledger.layer i tree ∧
        (∀ id, run₁.handles[i]? = some id → Tree.Unfolds run₁.store.arena.layer id tree) ∧
        (∀ id, run₂.handles[i]? = some id → Tree.Unfolds run₂.store.arena.layer id tree)) ∧
      ((∀ request ∈ Action.requests calls₁, request.TextFits) →
        (Action.requests calls₁).length ≤ Limits.maxShardIndex + 1 →
          run₁.handles.length = (Action.requests calls₁).length ∧
            run₂.handles.length = (Action.requests calls₁).length) := by
  intro ledger run₁ run₂
  have hlength : (Action.requests calls₁).length = (Action.requests calls₂).length := by
    simpa using congrArg List.length hsame
  have hledger : Ledger.ofRequests (Action.requests calls₂) = ledger := by
    rw [Ledger.ofRequests, ← Ledger.foldl_enter_unnumbered, ← hsame,
      Ledger.foldl_enter_unnumbered]
    rfl
  have hscoped₂ : Request.Scoped 0 (Action.requests calls₂) := by
    rw [← Request.scoped_map_unnumbered, ← hsame, Request.scoped_map_unnumbered]
    exact hscoped
  obtain ⟨l₁, h₁, hinitial₁, hall₁⟩ := mirrors_run instance₁ sizeBits₁ hscoped
  obtain ⟨l₂, h₂, hinitial₂, hall₂⟩ := mirrors_run instance₂ sizeBits₂ hscoped₂
  rw [hledger] at hinitial₂
  constructor
  · intro i hi
    obtain ⟨tree, htree⟩ := Ledger.exists_unfolds hscoped hi
    refine ⟨tree, ⟨htree, ?_, ?_⟩, fun other hother => hother.1.unique htree⟩
    · intro id hid
      exact (Tree.unfolds_iff_of_alike (h₁.alike hinitial₁) hid tree).mp htree
    · intro id hid
      exact (Tree.unfolds_iff_of_alike (h₂.alike hinitial₂) hid tree).mp htree
  · intro htexts hroom
    have htexts₂ : ∀ request ∈ Action.requests calls₂, request.TextFits := by
      rw [← Request.forall_textFits_map_unnumbered, ← hsame,
        Request.forall_textFits_map_unnumbered]
      exact htexts
    exact ⟨hall₁ htexts hroom, hlength ▸ hall₂ htexts₂ (hlength ▸ hroom)⟩

/-- Emptying a cache makes a second node where another run reuses the first. -/
theorem reuse_is_invisible_after_clear :
    let node : Call := .request (.node ⟨9⟩ .present [some 0, none])
    let calls₁ : List Call :=
      [.request (.token ⟨5⟩ "x"), node, .onCache ⟨.clear, rfl⟩, node,
        .request (.annotate 2 [⟨1, some "fold", none⟩])]
    let calls₂ : List Call :=
      [.request (.token ⟨5⟩ "x"), node, .onCache ⟨.probe .empty ⟨⟨9⟩, .present, []⟩, rfl⟩, node,
        .request (.annotate 2 [⟨7, some "fold", none⟩])]
    ((start 1 4).run calls₁).handles[2]? = some ⟨123⟩ ∧
      ((start 2 5).run calls₂).handles[2]? = some ⟨59⟩ ∧
      (∃ tree, Tree.Unfolds ((start 1 4).run calls₁).store.arena.layer ⟨123⟩ tree ∧
        Tree.Unfolds ((start 2 5).run calls₂).store.arena.layer ⟨59⟩ tree) ∧
      ((start 1 4).run calls₁).handles.length = 4 ∧
      ((start 2 5).run calls₂).handles.length = 4 := by
  intro node calls₁ calls₂
  have hid₁ : ((start 1 4).run calls₁).handles[2]? = some ⟨123⟩ := by decide +kernel
  have hid₂ : ((start 2 5).run calls₂).handles[2]? = some ⟨59⟩ := by decide +kernel
  have hlength : (Action.requests calls₁).length = 4 := rfl
  have hroom : 4 ≤ Limits.maxShardIndex + 1 := by decide +kernel
  obtain ⟨htrees, hlengths⟩ := reuse_is_invisible 1 2 4 5 calls₁ calls₂ (by decide) rfl
  obtain ⟨tree, ⟨-, h₁, h₂⟩, -⟩ := htrees 2 (by decide)
  rw [hlength] at hlengths
  exact ⟨hid₁, hid₂, ⟨tree, h₁ ⟨123⟩ hid₁, h₂ ⟨59⟩ hid₂⟩, hlengths (by decide) hroom⟩

end Client
end GreenTree
