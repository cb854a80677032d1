import GreenTree.Store.Text
import GreenTree.Proofs.Stack
import GreenTree.Proofs.Store.Grounding

/-!
# Text and width of a tree

Over known children an id stands for a tree, and the walk that gathers its text meets every node of
the tree as often as it occurs, from left to right. Widths are sums of widths, so the width of a
tree is the size of its text, as far as widths go.
-/

namespace GreenTree

namespace Tree

def label : Tree → Label
  | node label _ => label

/-- The width that the label of the tree shows. -/
def width (tree : Tree) : ℕ := tree.label.width.toNat

mutual

/-- The texts of the tokens of a tree from left to right. -/
def text : Tree → String
  | node label slots => label.text.getD "" ++ slotsText slots

def slotsText : List (Option Tree) → String
  | [] => ""
  | none :: rest => slotsText rest
  | some tree :: rest => tree.text ++ slotsText rest

end

mutual

/-- The number of nodes of a tree, each counted as often as it occurs. -/
def count : Tree → ℕ
  | node _ slots => slotsCount slots + 1

def slotsCount : List (Option Tree) → ℕ
  | [] => 0
  | none :: rest => slotsCount rest
  | some tree :: rest => tree.count + slotsCount rest

end

/-- Every node of the tree is as wide as its text, and tokens have no slots. -/
inductive Exact : Tree → Prop
  | node {label : Label} {slots : List (Option Tree)}
      (hwidth : label.width.toNat = (Tree.node label slots).text.utf8ByteSize)
      (hleaf : label.text ≠ none → slots = [])
      (hslots : ∀ tree, some tree ∈ slots → Exact tree) : Exact (.node label slots)

theorem Exact.width_eq {tree : Tree} (h : tree.Exact) : tree.width = tree.text.utf8ByteSize := by
  cases h with
  | node hwidth _ _ => exact hwidth

theorem size_text_le_of_mem {slots : List (Option Tree)} {tree : Tree} (h : some tree ∈ slots) :
    tree.text.utf8ByteSize ≤ (slotsText slots).utf8ByteSize := by
  induction slots with
  | nil => cases h
  | cons slot rest ih =>
    rcases List.mem_cons.mp h with rfl | hrest
    · rw [slotsText, String.utf8ByteSize_append]
      exact Nat.le_add_right _ _
    · cases slot with
      | none => exact ih hrest
      | some other =>
        rw [slotsText, String.utf8ByteSize_append]
        exact (ih hrest).trans (Nat.le_add_left _ _)

theorem slotsCount_le {slots : List (Option Tree)} {bound : ℕ}
    (h : ∀ tree, some tree ∈ slots → tree.count ≤ bound) :
    slotsCount slots ≤ slots.length * bound := by
  induction slots with
  | nil => exact Nat.zero_le _
  | cons slot rest ih =>
    have hrest := ih fun tree htree => h tree (List.mem_cons_of_mem _ htree)
    rw [List.length_cons, Nat.succ_mul]
    cases slot with
    | none => exact hrest.trans (Nat.le_add_right _ _)
    | some tree =>
      have htree := h tree List.mem_cons_self
      rw [slotsCount]
      omega

/-- A tree of few levels with few slots in each node has few nodes. -/
theorem count_le_of_unfoldTo? {ι : Type} {layer : Layer ι} {most : ℕ}
    (h : ∀ id label slots, layer id = some (label, slots) → slots.length ≤ most) {depth : ℕ}
    {id : ι} {tree : Tree} (htree : unfoldTo? layer depth id = some tree) :
    tree.count ≤ (most + 1) ^ depth := by
  induction depth generalizing id tree with
  | zero => cases htree
  | succ depth ih =>
    obtain ⟨label, trees⟩ := tree
    obtain ⟨slots, hlayer, hslots⟩ := slots_of_unfoldTo? htree
    have hbelow : ∀ tree, some tree ∈ trees → tree.count ≤ (most + 1) ^ depth := by
      intro tree hmem
      obtain ⟨child, -, hchild⟩ := exists_child_of_mem hslots hmem
      exact ih hchild
    have hfew : trees.length ≤ most := hslots.length_eq ▸ h id label slots hlayer
    calc slotsCount trees + 1
        ≤ trees.length * (most + 1) ^ depth + 1 := Nat.succ_le_succ (slotsCount_le hbelow)
      _ ≤ most * (most + 1) ^ depth + (most + 1) ^ depth :=
          Nat.add_le_add (Nat.mul_le_mul_right _ hfew) (Nat.one_le_pow _ _ (Nat.succ_pos _))
      _ = (most + 1) ^ (depth + 1) := by ring

end Tree

namespace Arena

variable {a : Arena} {rank : NodeId → ℕ} {root : NodeId} {n : Node} {tree : Tree}

theorem mem_nodes (hget : a.get? root = some n) : n ∈ a.nodes := by
  rw [get?] at hget
  split_ifs at hget
  refine List.mem_flatMap.mpr ⟨a.shards.get root.shard, ?_, ?_⟩
  · exact Vector.mem_toList_iff.mpr (Vector.getElem_mem _)
  · exact Array.mem_toList_iff.mpr (Array.mem_of_getElem? hget)

theorem length_slots_le (hget : a.get? root = some n) : n.slots.length ≤ a.maxSlots := by
  have hfold : ∀ (nodes : List Node) (most : ℕ),
      most ≤ nodes.foldl (fun most n => max most n.slots.length) most ∧
        ∀ n ∈ nodes, n.slots.length ≤ nodes.foldl (fun most n => max most n.slots.length) most := by
    intro nodes
    induction nodes with
    | nil => simp
    | cons n rest ih =>
      intro most
      obtain ⟨hmost, hrest⟩ := ih (max most n.slots.length)
      rw [List.foldl_cons, List.forall_mem_cons]
      exact ⟨(le_max_left _ _).trans hmost, (le_max_right _ _).trans hmost, hrest⟩
  exact (hfold a.nodes 0).2 n (mem_nodes hget)

theorem pow_le_walkBound (a : Arena) {levels : ℕ} (h : levels ≤ a.size + 2) :
    (a.maxSlots + 1) ^ levels ≤ a.walkBound := by
  have hpow : (a.maxSlots + 1) ^ levels ≤ (a.maxSlots + 1) ^ (a.size + 2) :=
    Nat.pow_le_pow_right (Nat.succ_pos _) h
  exact hpow.trans (Nat.le_mul_of_pos_left _ (by positivity))

theorem pow_size_le_walkBound (a : Arena) : (a.maxSlots + 1) ^ a.size ≤ a.walkBound :=
  a.pow_le_walkBound (Nat.le_add_right _ _)

theorem walkBound_pos (a : Arena) : 0 < a.walkBound :=
  (Nat.one_le_pow _ _ (Nat.succ_pos _)).trans a.pow_size_le_walkBound

/-- Gathering the text below some ids takes as many steps as their trees have nodes. -/
theorem consumes_slots {ids : List (Option NodeId)} {slots : List (Option Tree)}
    (hslots : List.Forall₂ (Option.Rel (Tree.Unfolds a.layer)) ids slots)
    (htrees : ∀ tree, some tree ∈ slots → ∀ id, Tree.Unfolds a.layer id tree →
      Stack.Consumes a.gatherText [id] tree.count (· ++ tree.text)) :
    Stack.Consumes a.gatherText (ids.filterMap id) (Tree.slotsCount slots)
      (· ++ Tree.slotsText slots) := by
  induction hslots with
  | nil => exact Stack.consumes_nil.congr fun out => String.append_empty.symm
  | cons hslot _ ih =>
    have hrest := ih fun tree hmem => htrees tree (List.mem_cons_of_mem _ hmem)
    cases hslot with
    | none => exact hrest
    | @some child tree htree =>
      have hfirst := htrees tree List.mem_cons_self child htree
      exact (hfirst.append hrest).congr fun out => String.append_assoc

theorem gatherText_known (hget : a.get? root = some n) (fuel : ℕ) (pending : List NodeId)
    (out : String) : a.gatherText (fuel + 1) (root :: pending) out =
      a.gatherText fuel (n.children ++ pending) (out ++ n.text.getD "") := by
  rw [gatherText]
  simp only [hget]
  cases n.text with
  | none => rw [Option.getD_none, String.append_empty]
  | some text => rfl

/-- Gathering the text below an id takes as many steps as its tree has nodes. -/
theorem consumes_tree (h : Tree.Unfolds a.layer root tree) :
    Stack.Consumes a.gatherText [root] tree.count (· ++ tree.text) := by
  induction tree generalizing root with
  | node label slots ih =>
    obtain ⟨n, hget, rfl, hslots⟩ := exists_node_of_unfolds h
    have hbelow := consumes_slots hslots fun tree hmem id htree => ih tree hmem htree
    exact (hbelow.of_step (gatherText_known hget)).congr fun out => String.append_assoc

/-- The widths of some trees add up to the size of their texts together, as far as widths go. -/
theorem toNat_foldl_cappedSum {ids : List (Option NodeId)} {slots : List (Option Tree)}
    (hslots : List.Forall₂ (Option.Rel (Tree.Unfolds a.layer)) ids slots)
    (htrees : ∀ tree, some tree ∈ slots → ∀ id, Tree.Unfolds a.layer id tree →
      tree.width = min tree.text.utf8ByteSize Limits.maxWidth.toNat) (sum : UInt32) :
    ((a.known (ids.filterMap id)).foldl (fun sum m => Offset.cappedSum sum m.width) sum).toNat =
      min (sum.toNat + (Tree.slotsText slots).utf8ByteSize) Limits.maxWidth.toNat := by
  induction hslots generalizing sum with
  | nil =>
    have hsum := sum.toNat_lt
    change sum.toNat = min (sum.toNat + 0) 4294967295
    omega
  | @cons _ _ ids _ hslot _ ih =>
    have hrest := ih fun tree hmem => htrees tree (List.mem_cons_of_mem _ hmem)
    cases hslot with
    | none => exact hrest sum
    | @some child tree htree =>
      obtain ⟨label, below⟩ := tree
      obtain ⟨m, hget, rfl, -⟩ := exists_node_of_unfolds htree
      have hwidth := htrees _ List.mem_cons_self child htree
      have hknown : a.known ((some child :: ids).filterMap id) = m :: a.known (ids.filterMap id) :=
        List.filterMap_cons_some hget
      have hmax : Limits.maxWidth.toNat = UInt32.size - 1 := rfl
      rw [hknown, List.foldl_cons, hrest, Offset.toNat_cappedSum, Tree.slotsText,
        String.utf8ByteSize_append, show m.width.toNat = _ from hwidth]
      omega

namespace Grounded

/-- A tree is as wide as its text, as far as widths go. -/
theorem width_eq (h : a.Grounded rank) (htree : Tree.Unfolds a.layer root tree) :
    tree.width = min tree.text.utf8ByteSize Limits.maxWidth.toNat := by
  induction tree generalizing root with
  | node label slots ih =>
    obtain ⟨n, hget, rfl, hslots⟩ := exists_node_of_unfolds htree
    obtain ⟨hknown, hinterior, htoken⟩ := h.founded root n hget
    change n.width.toNat = min (n.text.getD "" ++ Tree.slotsText slots).utf8ByteSize _
    rcases htext : n.text with _ | text
    · have hsum := toNat_foldl_cappedSum hslots (fun tree hmem id => ih tree hmem) 0
      rw [UInt32.toNat_zero, Nat.zero_add] at hsum
      rw [hinterior htext, Option.getD_none, String.empty_append]
      exact hsum
    · obtain ⟨hleaf, hwidth⟩ := htoken text htext
      rw [hleaf, List.forall₂_nil_left_iff] at hslots
      subst hslots
      have hword := n.width.toNat_lt
      rw [Option.getD_some, Tree.slotsText, String.append_empty, ← hwidth]
      exact (Nat.min_eq_left (Nat.le_of_lt_succ hword)).symm

theorem exact (h : a.Grounded rank) (htree : Tree.Unfolds a.layer root tree)
    (hsize : tree.text.utf8ByteSize ≤ Limits.maxWidth.toNat) : tree.Exact := by
  induction tree generalizing root with
  | node label slots ih =>
    have hwidth := h.width_eq htree
    rw [Nat.min_eq_left hsize] at hwidth
    obtain ⟨n, hget, rfl, hslots⟩ := exists_node_of_unfolds htree
    refine .node hwidth ?_ ?_
    · intro htext
      obtain ⟨text, htext⟩ := Option.ne_none_iff_exists'.mp htext
      obtain ⟨hleaf, -⟩ := (h.founded root n hget).token text htext
      rw [hleaf, List.forall₂_nil_left_iff] at hslots
      exact hslots
    · intro tree hmem
      obtain ⟨child, -, hchild⟩ := Tree.exists_child_of_mem hslots hmem
      refine ih tree hmem hchild ((Tree.size_text_le_of_mem hmem).trans ?_)
      rw [Tree.text, String.utf8ByteSize_append] at hsize
      exact (Nat.le_add_left _ _).trans hsize

/-- Every known id stands for a tree, which is met as a whole within the bound of a walk. -/
theorem exists_tree (h : a.Grounded rank) (hget : a.get? root = some n) :
    ∃ tree, Tree.Unfolds a.layer root tree ∧ tree.count ≤ a.walkBound := by
  obtain ⟨tree, htree⟩ := h.exists_unfoldTo? hget
  refine ⟨tree, ⟨_, htree⟩, (Tree.count_le_of_unfoldTo? ?_ htree).trans a.pow_size_le_walkBound⟩
  intro id label slots hlayer
  obtain ⟨m, hm, -, rfl⟩ := layer_eq_some_iff.mp hlayer
  exact length_slots_le hm

end Grounded

/-- The text of an id is the text of its tree. -/
theorem text_eq (htree : Tree.Unfolds a.layer root tree) (hcount : tree.count ≤ a.walkBound) :
    a.text root = .ok tree.text := by
  have hrun := (consumes_tree htree).run hcount (fun fuel out => by simp [gatherText]) ""
  rw [String.empty_append] at hrun
  exact hrun

theorem text_of_unknown (hget : a.get? root = none) : a.text root = .ok "" := by
  obtain ⟨fuel, hfuel⟩ := Nat.exists_eq_add_one_of_ne_zero a.walkBound_pos.ne'
  rw [text, hfuel, gatherText]
  simp [hget, gatherText]

end Arena
end GreenTree
