import GreenTree.Proofs.Arena.Handles
import GreenTree.Proofs.Node.Flags
import GreenTree.Store.Basic

/-!
# Assembled nodes

The width and the flags of an assembled node are sums over its known children. Adding the flags of
the children a second time changes nothing, so the key of an assembled node assembles to that node,
and the key a cache asks for is the key of the node that would be built.
-/

namespace GreenTree

namespace Flags

theorem or_assoc (f g h : Flags) : f ||| g ||| h = f ||| (g ||| h) :=
  congrArg Flags.mk (UInt16.or_assoc ..)

theorem or_self (f : Flags) : f ||| f = f := congrArg Flags.mk UInt16.or_self

theorem or_none (f : Flags) : f ||| none = f := congrArg Flags.mk UInt16.or_zero

end Flags

theorem NodeKey.mem_children_iff {key : NodeKey} {child : NodeId} :
    child ∈ key.children ↔ some child ∈ key.slots := by
  simp [NodeKey.children]

/-- The nodes that these ids name, unknown ids left out. -/
def Arena.known (arena : Arena) (ids : List NodeId) : List Node := ids.filterMap arena.get?

theorem Arena.known_of_extends {arena after : Arena} (h : arena.Extends after) {ids : List NodeId}
    (hknown : ∀ id ∈ ids, ∃ n, arena.get? id = some n) : after.known ids = arena.known ids := by
  apply List.filterMap_congr
  intro id hid
  obtain ⟨n, hn⟩ := hknown id hid
  rw [hn, h id n hn]

namespace Node

/-- The flags of a parent of these nodes, of which it has `flags` by itself. -/
def flagsOver (flags : Flags) (nodes : List Node) : Flags :=
  nodes.foldl (fun sum n => sum ||| n.flags.inherited) flags

/-- The width of a parent of these nodes. -/
def widthOver (nodes : List Node) : UInt32 :=
  nodes.foldl (fun sum n => Offset.cappedSum sum n.width) 0

theorem flagsOver_eq_or (flags : Flags) (nodes : List Node) :
    flagsOver flags nodes = flags ||| flagsOver .none nodes := by
  induction nodes generalizing flags with
  | nil => exact (Flags.or_none flags).symm
  | cons n rest ih =>
    calc flagsOver flags (n :: rest)
        = flags ||| n.flags.inherited ||| flagsOver .none rest := ih _
      _ = flags ||| (.none ||| n.flags.inherited ||| flagsOver .none rest) := by
          rw [Flags.or_assoc, Flags.or_assoc .none, ← Flags.or_assoc flags .none, Flags.or_none]
      _ = flags ||| flagsOver .none (n :: rest) := by
          rw [← ih (.none ||| n.flags.inherited)]
          rfl

theorem flagsOver_flagsOver (flags : Flags) (nodes : List Node) :
    flagsOver (flagsOver flags nodes) nodes = flagsOver flags nodes := by
  rw [flagsOver_eq_or (flagsOver flags nodes), flagsOver_eq_or flags, Flags.or_assoc,
    Flags.or_self]

theorem isMissing_flagsOver (flags : Flags) (nodes : List Node) :
    (flagsOver flags nodes).isMissing = flags.isMissing := by
  induction nodes generalizing flags with
  | nil => rfl
  | cons n rest ih => exact (ih _).trans (Flags.isMissing_or_inherited ..)

theorem isDecorated_flagsOver {flags : Flags} (h : flags.isDecorated = true) (nodes : List Node) :
    (flagsOver flags nodes).isDecorated = true := by
  rw [flagsOver_eq_or]
  exact (Flags.or_meets_iff ..).mpr (.inl h)

theorem isDecorated_flagsOver_eq_false {flags : Flags} {nodes : List Node}
    (hflags : flags.isDecorated = false) (hnodes : ∀ n ∈ nodes, n.flags.isDecorated = false) :
    (flagsOver flags nodes).isDecorated = false := by
  induction nodes generalizing flags with
  | nil => exact hflags
  | cons n rest ih =>
    obtain ⟨hn, hrest⟩ := List.forall_mem_cons.mp hnodes
    apply ih _ hrest
    rw [← Bool.not_eq_true, Flags.isDecorated, Flags.or_meets_iff, not_or]
    exact ⟨Bool.not_eq_true _ ▸ hflags, Bool.not_eq_true _ ▸ Flags.isDecorated_inherited hn⟩

end Node

/-- The key with the flags that its known children pass up. -/
def Arena.effectiveKey (arena : Arena) (key : NodeKey) : NodeKey :=
  { key with flags := Node.flagsOver key.flags (arena.known key.children) }

namespace Store

variable (arena : Arena)

theorem foldl_absorb (ids : List NodeId) (sum : UInt32 × Flags) :
    ids.foldl (absorb arena) sum =
      ((arena.known ids).foldl (fun width n => Offset.cappedSum width n.width) sum.1,
        Node.flagsOver sum.2 (arena.known ids)) := by
  induction ids generalizing sum with
  | nil => rfl
  | cons id rest ih =>
    rw [List.foldl_cons, ih, absorb, Arena.known, Arena.known, List.filterMap_cons]
    cases arena.get? id <;> rfl

theorem assemble_eq (key : NodeKey) :
    assemble arena key =
      .interior { key with flags := Node.flagsOver key.flags (arena.known key.children) }
        (Node.widthOver (arena.known key.children)) := by
  rw [assemble, foldl_absorb]
  rfl

@[simp] theorem key_assemble (key : NodeKey) :
    (assemble arena key).key = arena.effectiveKey key := by
  rw [assemble_eq]
  rfl

@[simp] theorem children_assemble (key : NodeKey) :
    (assemble arena key).children = key.children := by
  rw [Node.children, key_assemble]
  rfl

theorem assemble_key_assemble (key : NodeKey) :
    assemble arena (assemble arena key).key = assemble arena key := by
  have hchildren : (assemble arena key).key.children = key.children := children_assemble arena key
  rw [assemble_eq arena (assemble arena key).key, hchildren, key_assemble, assemble_eq]
  simp only [Arena.effectiveKey, Node.flagsOver_flagsOver]

variable {arena} {after : Arena}

theorem assemble_of_extends (h : arena.Extends after) {key : NodeKey}
    (hknown : ∀ child ∈ key.children, ∃ n, arena.get? child = some n) :
    assemble after key = assemble arena key := by
  rw [assemble_eq, assemble_eq, Arena.known_of_extends h hknown]

theorem inherit?_eq_some {key effective : NodeKey} {ids : List NodeId}
    (h : key.inherit? arena ids = some effective) :
    (∀ id ∈ ids, ∃ n, arena.get? id = some n ∧ n.isCacheable = true) ∧
      effective = { key with flags := Node.flagsOver key.flags (arena.known ids) } := by
  induction ids generalizing key with
  | nil =>
    cases h
    exact ⟨by simp, rfl⟩
  | cons id rest ih =>
    rw [NodeKey.inherit?] at h
    rcases hget : arena.get? id with _ | n
    · rw [hget] at h
      cases h
    · simp only [hget, Option.ite_none_right_eq_some] at h
      obtain ⟨hcacheable, h⟩ := h
      obtain ⟨hrest, rfl⟩ := ih h
      refine ⟨List.forall_mem_cons.mpr ⟨⟨n, hget, hcacheable⟩, hrest⟩, ?_⟩
      rw [Arena.known, Arena.known, List.filterMap_cons, hget]
      rfl

theorem inherit?_of_cacheable {key : NodeKey} {ids : List NodeId}
    (h : ∀ id ∈ ids, ∃ n, arena.get? id = some n ∧ n.isCacheable = true) :
    key.inherit? arena ids =
      some { key with flags := Node.flagsOver key.flags (arena.known ids) } := by
  induction ids generalizing key with
  | nil => rfl
  | cons id rest ih =>
    obtain ⟨⟨n, hget, hn⟩, hrest⟩ := List.forall_mem_cons.mp h
    simp only [NodeKey.inherit?, hget, hn, ↓reduceIte, ih hrest, Arena.known, List.filterMap_cons]
    rfl

/-- A cache looks for the key of the node that would be built, all of whose children are known. -/
theorem effective?_eq_some {key effective : NodeKey} (h : key.effective? arena = some effective) :
    effective = (assemble arena key).key ∧
      ∀ child ∈ key.children, ∃ n, arena.get? child = some n ∧ n.isCacheable = true := by
  rw [NodeKey.effective?] at h
  split_ifs at h
  obtain ⟨hchildren, heffective⟩ := inherit?_eq_some h
  exact ⟨heffective.trans (key_assemble arena key).symm, hchildren⟩

/-- A cache looks for the key of every node that it may hold over children that it may hold. -/
theorem effective?_of_isCacheable {key : NodeKey} {n : Node} (hn : n.isCacheable = true)
    (hkey : n.key = arena.effectiveKey key)
    (hchildren : ∀ child ∈ key.children, ∃ m, arena.get? child = some m ∧ m.isCacheable = true) :
    key.effective? arena = some n.key := by
  simp only [Node.isCacheable, Node.isMissing, Node.flags, Node.slots, hkey, Arena.effectiveKey,
    Node.isMissing_flagsOver, Bool.and_eq_true, Bool.not_eq_true', decide_eq_true_eq] at hn
  obtain ⟨⟨hmissing, hdecorated⟩, hslots⟩ := hn
  have hplain : ¬ key.flags.isDecorated = true := fun h => by
    rw [Node.isDecorated_flagsOver h] at hdecorated
    cases hdecorated
  rw [NodeKey.effective?, if_neg, inherit?_of_cacheable hchildren, hkey]
  · rfl
  · simp only [not_or, not_lt]
    exact ⟨hslots, by simp [hmissing], hplain⟩

end Store
end GreenTree
