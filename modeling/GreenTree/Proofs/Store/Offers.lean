import GreenTree.Proofs.Store.Soundness

/-!
# Offers by a client

A client may offer any node of the arena to the cache. A hit is compared with the key of the node
that would be built, so kind, flags and slots are right whatever was offered, and what is held
carries neither diagnostics nor annotations. The key does not tell everything: a token has the key
of a node without slots, and a node that was built before its children were known is too narrow.
Where no such node is offered, every answer is right.
-/

namespace GreenTree

/-- If the action offers a node that the arena knows, the node passes the test. -/
def Action.offersOnly (test : Arena → Node → Bool) (s : Store) : Store.Action → Bool
  | .onCache (.offer id _) => (s.arena.get? id).all (test s.arena)
  | _ => true

/-- Whether the node is as wide as its children are together. Tokens are not looked at. -/
def Arena.measures (arena : Arena) (n : Node) : Bool :=
  n.isToken || n.width == Node.widthOver (arena.known n.children)

/-- Every node passes the test when it is built, and over known children it goes on passing it. -/
structure Arena.Lasting (test : Arena → Node → Bool) : Prop where
  assembled : ∀ arena key, test arena (Store.assemble arena key) = true
  later : ∀ a b n, a.Extends b → (∀ child ∈ n.children, ∃ m, a.get? child = some m) →
    test a n = true → test b n = true

namespace Arena.Lasting

theorem not_isToken : Lasting fun _ n => !n.isToken where
  assembled arena key := by
    rw [Store.assemble_eq]
    rfl
  later _ _ _ _ _ h := h

theorem measures : Lasting Arena.measures where
  assembled arena key := by
    rw [Arena.measures, Store.children_assemble, Store.assemble_eq]
    simp [Node.interior]
  later a b n hab hknown h := by
    rwa [Arena.measures, Arena.known_of_extends hab hknown]

end Arena.Lasting

theorem Cache.exists_node_of_admitsChild {c : Cache} {arena : Arena} {child : NodeId}
    (h : c.admitsChild arena child = true) : ∃ n, arena.get? child = some n := by
  unfold admitsChild at h
  rcases hget : arena.get? child with _ | n
  · rw [hget] at h
    cases h
  · exact ⟨n, rfl⟩

namespace Store

/-- Every node that the cache holds stands over known children and passes the test. -/
def HoldsOnly (test : Arena → Node → Bool) (s : Store) : Prop :=
  ∀ hash hash' id, s.cache.entry? hash = some (hash', id) → ∃ n, s.arena.get? id = some n ∧
    (∀ child ∈ n.children, ∃ m, s.arena.get? child = some m) ∧ test s.arena n = true

variable {s s' : Store} {test : Arena → Node → Bool} {kind : Kind} {flags : Flags}
  {slots : List (Option NodeId)} {id : NodeId}

theorem HoldsOnly.act (htest : Arena.Lasting test) (hs : s.Sound) (hholds : s.HoldsOnly test)
    {action : Action} {id? : Option NodeId} (hrule : action.offersOnly test s = true)
    (h : s.act action = .ok (id?, s')) : s'.HoldsOnly test := by
  have hchange := change_of_act h
  have hextends := hchange.extends
  intro hash hash' id hentry
  obtain hold | ⟨-, hadmits, ⟨rfl, hsame⟩ | ⟨key, -, hstore, hchildren⟩⟩ :=
    hchange.origin (hs.formed.change hchange) hentry
  · obtain ⟨n, hget, hknown, hn⟩ := hholds hash hash' id hold
    exact ⟨n, hextends id n hget, hextends.known hknown, htest.later _ _ n hextends hknown hn⟩
  · obtain ⟨n, hget, -, -, hall⟩ := Cache.admits_iff.mp hadmits
    -- Children that are not known are refused, so the test goes on to hold.
    refine ⟨n, hget, fun child hchild => Cache.exists_node_of_admitsChild (hall child hchild), ?_⟩
    rw [hsame] at hget ⊢
    simpa only [Action.offersOnly, hget, Option.all_some] using hrule
  · have hknown : ∀ child ∈ (assemble s.arena key).children, ∃ m, s.arena.get? child = some m := by
      intro child hchild
      rw [children_assemble] at hchild
      obtain ⟨m, hm, -⟩ := hchildren child hchild
      exact ⟨m, hm⟩
    exact ⟨_, Arena.get?_stored hstore, hextends.known hknown,
      htest.later _ _ _ hextends hknown (htest.assembled s.arena key)⟩

theorem holdsOnly_run (htest : Arena.Lasting test) (instanceNumber sizeBits : ℕ)
    {actions : List Action} (hactions : (ofCache instanceNumber (.ofBits sizeBits)).Obeys
      (Action.offersOnly test) actions) :
    ((ofCache instanceNumber (.ofBits sizeBits)).run actions).HoldsOnly test := by
  refine (Run.last_induction (Action.offersOnly test) (fun s : Store => s.Sound ∧ s.HoldsOnly test)
    ?_ hactions ⟨sound_ofBits instanceNumber sizeBits, ?_⟩).2
  · rintro s action id? s' ⟨hs, hholds⟩ hrule h
    exact ⟨hs.act h, hholds.act htest hs hrule h⟩
  · exact fun _ _ _ hentry => absurd hentry Cache.entry?_ofBits_ne

/-- The node that a request is answered with has the key that was asked for and passes every test
that what the cache holds and what is built pass. -/
theorem node_passes (hs : s.Sound) (h : s.node kind flags slots = .ok (id, s')) :
    ∃ n, s'.arena.get? id = some n ∧ n.key = s.arena.effectiveKey ⟨kind, flags.undecorated, slots⟩ ∧
      (n.diagnostics = none ∧ n.annotations = none) ∧ n.Formed ∧
      ∀ test, Arena.Lasting test → s.HoldsOnly test → test s.arena n = true := by
  obtain ⟨effective, heffective, hfound, rfl⟩ | ⟨arena, hstore, hs'⟩ := node_cases h
  · obtain ⟨hentry, n, hget, hkey⟩ := Cache.lookup?_eq_some_iff.mp hfound
    obtain ⟨-, m, hm, -, hcacheable⟩ := hs.entry _ _ id hentry
    rw [hget, Option.some.injEq] at hm
    subst hm
    have hformed := hs.formed id n hget
    refine ⟨n, hget, ?_, hformed.bare hcacheable, hformed, ?_⟩
    · rw [hkey, (effective?_eq_some heffective).1, key_assemble]
    · intro test _ hholds
      obtain ⟨m, hm, -, hpasses⟩ := hholds _ _ id hentry
      rw [hget, Option.some.injEq] at hm
      exact hm ▸ hpasses
  · have hget : s'.arena.get? id = some (assemble s.arena ⟨kind, flags.undecorated, slots⟩) := by
      obtain rfl | ⟨-, -, rfl⟩ := hs' <;> exact Arena.get?_stored hstore
    refine ⟨_, hget, key_assemble _ _, ?_, Node.formed_assemble _ _,
      fun test htest _ => htest.assembled _ _⟩
    rw [assemble_eq]
    exact ⟨rfl, rfl⟩

theorem exists_answer_of_passes {test : Node → Bool}
    (h : Outcome.passes (s.node kind flags slots) (fun answer =>
      (answer.2.arena.get? answer.1).any test) = true) :
    ∃ id t n, s.node kind flags slots = .ok (id, t) ∧ t.arena.get? id = some n ∧
      test n = true := by
  obtain ⟨⟨id, t⟩, hnode, htest⟩ := Outcome.exists_of_passes h
  obtain ⟨n, hget, hn⟩ := (Option.any_eq_true ..).mp htest
  exact ⟨id, t, n, hnode, hget, hn⟩

/-- Whatever was offered, a request for a node is answered with a node of the kind, flags and slots
that were asked for, without diagnostics and annotations. It is no token if there are slots or no
token was offered, and it is as wide as its children are together if every node had that width when
it was offered. -/
theorem answer_right_despite_offers (instanceNumber sizeBits : ℕ) (actions : List Action)
    {t : Store}
    (h : ((ofCache instanceNumber (.ofBits sizeBits)).run actions).node kind flags slots =
      .ok (id, t)) :
    let start := ofCache instanceNumber (.ofBits sizeBits)
    let s := start.run actions
    let key : NodeKey := ⟨kind, flags.undecorated, slots⟩
    ∃ n, t.arena.get? id = some n ∧ n.key = s.arena.effectiveKey key ∧
      n.diagnostics = none ∧ n.annotations = none ∧
      (slots ≠ [] ∨ start.Obeys (Action.offersOnly fun _ n => !n.isToken) actions →
        n.text = none) ∧
      (start.Obeys (Action.offersOnly Arena.measures) actions → n.text = none →
        n.width = Node.widthOver (s.arena.known key.children)) := by
  intro start s key
  obtain ⟨n, hget, hkey, ⟨hdiagnostics, hannotations⟩, hformed, hpasses⟩ :=
    node_passes ((sound_ofBits instanceNumber sizeBits).run actions) h
  refine ⟨n, hget, hkey, hdiagnostics, hannotations, ?_, ?_⟩
  · intro hcase
    have hinterior : n.isToken = false := by
      obtain hslots | hactions := hcase
      · have hslots' : n.slots = slots := by rw [Node.slots, hkey]; rfl
        exact Bool.eq_false_iff.mpr fun htoken => hslots (hslots' ▸ hformed.slots htoken)
      · simpa only [Bool.not_eq_true'] using hpasses _ .not_isToken
          (holdsOnly_run .not_isToken instanceNumber sizeBits hactions)
    simpa only [Node.isToken, Option.isSome_eq_false_iff, Option.isNone_iff_eq_none] using hinterior
  · intro hactions htext
    have hmeasures := hpasses _ .measures
      (holdsOnly_run .measures instanceNumber sizeBits hactions)
    have hchildren : n.children = key.children := by rw [Node.children, hkey]; rfl
    simpa only [Arena.measures, Node.isToken, htext, Option.isSome_none, Bool.false_or, beq_iff_eq,
      hchildren] using hmeasures

/-- A node that the cache has lost is offered again by the client and found from then on. -/
theorem answer_right_despite_offers_again :
    let s := (ofCache 1 (.ofBits 4)).run [.request (.token ⟨10⟩ "a"),
      .request (.node ⟨20⟩ .present [some ⟨37⟩]), .onCache .clear,
      .onCache (.offer ⟨24⟩ 2004019052)]
    ∃ t n, s.node ⟨20⟩ .present [some ⟨37⟩] = .ok (⟨24⟩, t) ∧ t.arena.get? ⟨24⟩ = some n ∧
      n.text = none ∧ n.width = Node.widthOver (s.arena.known [⟨37⟩]) := by
  intro s
  obtain ⟨⟨id, t⟩, hanswer, hid⟩ := Outcome.exists_of_passes
    (show Outcome.passes (s.node ⟨20⟩ .present [some ⟨37⟩]) (·.1 == ⟨24⟩) = true by
      decide +kernel)
  obtain rfl : id = ⟨24⟩ := beq_iff_eq.mp hid
  obtain ⟨n, hget, -, -, -, htext, hwidth⟩ := answer_right_despite_offers 1 4 _ hanswer
  have hnone := htext (.inr (by decide +kernel))
  exact ⟨t, n, hanswer, hget, hnone, hwidth (by decide +kernel) hnone⟩

/-- A node without slots is asked for and a token is the answer, because it was offered. A node over
a token is asked for and one that is too narrow is the answer, because it was built before the token
was known and offered afterwards. -/
theorem answer_wrong_after_offers :
    let start := ofCache 1 (.ofBits 4)
    let s := start.run [.request (.token ⟨10⟩ "a"), .onCache (.offer ⟨37⟩ 11)]
    let s' := start.run [.request (.defaultNode ⟨20⟩ [some ⟨37⟩]), .request (.token ⟨10⟩ "a"),
      .onCache (.offer ⟨44⟩ 2004019052)]
    (∃ id t n, s.node ⟨10⟩ .present [] = .ok (id, t) ∧ t.arena.get? id = some n ∧
        n.text = some "a" ∧ n.width = 1) ∧
      ∃ id t n, s'.node ⟨20⟩ .present [some ⟨37⟩] = .ok (id, t) ∧ t.arena.get? id = some n ∧
        n.text = none ∧ n.width = 0 ∧ Node.widthOver (s'.arena.known [⟨37⟩]) = 1 := by
  intro start s s'
  obtain ⟨id, t, n, hnode, hget, hn⟩ := exists_answer_of_passes
    (show Outcome.passes (s.node ⟨10⟩ .present []) (fun answer =>
      (answer.2.arena.get? answer.1).any fun n => n.text == some "a" && n.width == 1) = true by
      decide +kernel)
  obtain ⟨id', t', n', hnode', hget', hn'⟩ := exists_answer_of_passes
    (show Outcome.passes (s'.node ⟨20⟩ .present [some ⟨37⟩]) (fun answer =>
      (answer.2.arena.get? answer.1).any fun n => n.text == none && n.width == 0) = true by
      decide +kernel)
  simp only [Bool.and_eq_true, beq_iff_eq] at hn hn'
  exact ⟨⟨id, t, n, hnode, hget, hn⟩,
    ⟨id', t', n', hnode', hget', hn'.1, hn'.2, by decide +kernel⟩⟩

end Store
end GreenTree
