import GreenTree.Proofs.Arena.Allocation
import GreenTree.Proofs.Store.Actions

/-!
# Nodes over known children

A client that passes known ids only builds from below: every node lies over nodes that were there
before it. So each node has a rank above those of its children, and as the children of a node never
change, it stays as wide as they are together.
-/

namespace GreenTree

/-- All children that the action asks for a node over are known. -/
def Action.overKnown (s : Store) (action : Store.Action) : Bool :=
  action.key?.all fun key => key.children.all s.arena.contains

/-- The node is as wide as the known nodes in its slots together, or it is a token without slots and
as wide as its text. -/
structure Node.Founded (n : Node) (arena : Arena) : Prop where
  known : ∀ child ∈ n.children, ∃ m, arena.get? child = some m
  interior : n.text = none → n.width = Node.widthOver (arena.known n.children)
  token : ∀ text, n.text = some text → n.slots = [] ∧ n.width.toNat = text.utf8ByteSize

/-- All nodes are founded, and each has a rank above those of its children. -/
structure Arena.Grounded (a : Arena) (rank : NodeId → ℕ) : Prop where
  founded : ∀ id n, a.get? id = some n → n.Founded a
  rank_lt : ∀ id n, a.get? id = some n → rank id < a.size
  lower : ∀ id n, a.get? id = some n → ∀ child ∈ n.children, rank child < rank id

namespace Node

variable {arena : Arena} {n : Node}

theorem Founded.of_extends {after : Arena} (h : n.Founded arena) (hafter : arena.Extends after) :
    n.Founded after where
  known := hafter.known h.known
  interior htext := by rw [h.interior htext, Arena.known_of_extends hafter h.known]
  token := h.token

theorem founded_of_token {kind : Kind} {flags : Flags} {text : String}
    (h : Node.token kind flags text = .ok n) : n.Founded arena := by
  rw [Node.token] at h
  split_ifs at h with hfits
  cases h
  constructor
  · simp [children, NodeKey.children]
  · intro htext
    cases htext
  · intro other htext
    cases htext
    exact ⟨rfl, UInt32.toNat_ofNat_of_lt' (Nat.lt_succ_of_le hfits)⟩

theorem founded_assemble {key : NodeKey}
    (h : ∀ child ∈ key.children, ∃ m, arena.get? child = some m) :
    (Store.assemble arena key).Founded arena := by
  rw [Store.assemble_eq]
  constructor
  · exact h
  · exact fun _ => rfl
  · intro text htext
    cases htext

/-- Decoration leaves width, text and slots as they are. -/
theorem Made.founded (h : n.Made arena)
    (harena : ∀ id m, arena.get? id = some m → m.Founded arena) : n.Founded arena := by
  cases h with
  | token hn => exact founded_of_token hn
  | diagnosed hget diagnostics =>
    obtain ⟨hknown, hinterior, htoken⟩ := harena _ _ hget
    exact ⟨hknown, hinterior, htoken⟩
  | annotated hget annotations =>
    obtain ⟨hknown, hinterior, htoken⟩ := harena _ _ hget
    exact ⟨hknown, hinterior, htoken⟩

end Node

namespace Arena

variable {a b : Arena} {rank : NodeId → ℕ} {id : NodeId} {n : Node}

theorem grounded_empty (rank : NodeId → ℕ) : empty.Grounded rank := by
  have hget : ∀ id n, empty.get? id ≠ some n := by simp [get?, empty, Vector.get]
  exact ⟨fun id n h => absurd h (hget id n), fun id n h => absurd h (hget id n),
    fun id n h => absurd h (hget id n)⟩

/-- A new node gets the highest rank so far. -/
theorem Grounded.store (h : a.Grounded rank) (hn : n.Founded a)
    (hstore : a.store n = .ok (id, b)) : b.Grounded (Function.update rank id a.size) := by
  have hextends := extends_of_store hstore
  have hsize : b.size = a.size + 1 := size_of_storeIn hstore
  have hold : ∀ other m, a.get? other = some m →
      Function.update rank id a.size other = rank other := fun other m hm =>
    Function.update_of_ne (ne_of_store hstore hm) _ _
  constructor
  · intro other m hm
    obtain ⟨rfl, rfl⟩ | hm := new_or_known_of_store hstore hm
    · exact hn.of_extends hextends
    · exact (h.founded other m hm).of_extends hextends
  · intro other m hm
    obtain ⟨rfl, rfl⟩ | hm := new_or_known_of_store hstore hm
    · rw [Function.update_self, hsize]
      exact Nat.lt_succ_self _
    · rw [hold other m hm, hsize]
      exact (h.rank_lt other m hm).trans (Nat.lt_succ_self _)
  · intro other m hm child hchild
    obtain ⟨rfl, rfl⟩ | hm := new_or_known_of_store hstore hm
    · obtain ⟨below, hbelow⟩ := hn.known child hchild
      rw [hold child below hbelow, Function.update_self]
      exact h.rank_lt child below hbelow
    · obtain ⟨below, hbelow⟩ := (h.founded other m hm).known child hchild
      rw [hold child below hbelow, hold other m hm]
      exact h.lower other m hm child hchild

/-- Every known id stands for a tree that has no more levels than the arena has nodes. -/
theorem Grounded.exists_unfoldTo? (h : a.Grounded rank) (hget : a.get? id = some n) :
    ∃ tree, Tree.unfoldTo? a.layer a.size id = some tree := by
  have hbelow : ∀ id, (∃ n, a.get? id = some n) → ∃ label slots, a.layer id = some (label, slots) ∧
      ∀ child, some child ∈ slots → (∃ m, a.get? child = some m) ∧ rank child < rank id := by
    rintro id ⟨n, hget⟩
    refine ⟨n.label, n.slots, layer_eq_some_iff.mpr ⟨n, hget, rfl, rfl⟩, ?_⟩
    intro child hslot
    have hchild : child ∈ n.children := NodeKey.mem_children_iff.mpr hslot
    exact ⟨(h.founded id n hget).known child hchild, h.lower id n hget child hchild⟩
  obtain ⟨tree, htree⟩ := Tree.exists_unfoldTo? hbelow ⟨n, hget⟩
  exact ⟨tree, Tree.unfoldTo?_of_le (h.rank_lt id n hget) htree⟩

end Arena

namespace Store

variable {s s' : Store} {action : Action} {rank : NodeId → ℕ}

theorem Change.grounded (h : s.Change action s') (hknown : action.overKnown s = true)
    (hs : s.arena.Grounded rank) : ∃ rank', s'.arena.Grounded rank' := by
  cases h with
  | kept harena _ => exact ⟨rank, harena ▸ hs⟩
  | stored hn hstore _ => exact ⟨_, hs.store (hn.founded hs.founded) hstore⟩
  | built hkey hstore _ =>
    refine ⟨_, hs.store (Node.founded_assemble ?_) hstore⟩
    intro child hchild
    rw [Action.overKnown, hkey, Option.all_some, List.all_eq_true] at hknown
    exact Option.isSome_iff_exists.mp (hknown child hchild)
  | offered _ harena _ => exact ⟨rank, harena ▸ hs⟩
  | cleared harena _ => exact ⟨rank, harena ▸ hs⟩

/-- A client that passes known ids only keeps the arena grounded. -/
theorem grounded_run (instanceNumber : ℕ) (cache : Cache) {actions : List Action}
    (h : (ofCache instanceNumber cache).Obeys Action.overKnown actions) :
    ∃ rank, ((ofCache instanceNumber cache).run actions).arena.Grounded rank := by
  refine Run.last_induction Action.overKnown (fun s : Store => ∃ rank, s.arena.Grounded rank) ?_ h
    ⟨fun _ => 0, Arena.grounded_empty _⟩
  rintro s action id? s' ⟨rank, hs⟩ hknown hact
  exact (change_of_act hact).grounded hknown hs

end Store
end GreenTree
