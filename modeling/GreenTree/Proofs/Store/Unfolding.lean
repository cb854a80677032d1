import GreenTree.Store.Basic
import Mathlib.Tactic

/-!
# Unfolding handles to trees

A handle stands for a tree: the label of the node it names, over the trees of the handles in the
slots. Two kinds of handles that are matched with equal labels, slot by slot, stand for the same
trees, whatever the handles are.
-/

namespace GreenTree

/-- All that a node shows of itself. The numbers of annotations are left out. -/
structure Label where
  kind : Kind
  flags : Flags
  width : UInt32
  text : Option String
  diagnostics : Option (List Diagnostic)
  annotations : Option (List (Option String × Option String))
  deriving DecidableEq

/-- A tree of labels, in which some slots may be empty. -/
inductive Tree where
  | node (label : Label) (slots : List (Option Tree))

def Node.label (n : Node) : Label where
  kind := n.kind
  flags := n.flags
  width := n.width
  text := n.text
  diagnostics := n.diagnostics
  annotations := n.annotations.map (·.map fun m => (m.kind, m.data))

namespace Tree

/-- What handles are looked up in: the label and the slots behind each known one. -/
abbrev Layer (ι : Type) : Type := ι → Option (Label × List (Option ι))

variable {ι κ : Type}

/-- The trees of the slots, if every handle in them has one. -/
def unfoldSlots? (below : ι → Option Tree) : List (Option ι) → Option (List (Option Tree))
  | [] => some []
  | none :: rest => (unfoldSlots? below rest).map (none :: ·)
  | some child :: rest =>
    match below child, unfoldSlots? below rest with
    | some tree, some trees => some (some tree :: trees)
    | _, _ => none

/-- The tree of a handle, if it is known and the tree has at most `depth` levels. -/
def unfoldTo? (layer : Layer ι) : ℕ → ι → Option Tree
  | 0, _ => none
  | depth + 1, id =>
    match layer id with
    | none => none
    | some (label, slots) => (unfoldSlots? (unfoldTo? layer depth) slots).map (.node label)

/-- The handle stands for this tree. -/
def Unfolds (layer : Layer ι) (id : ι) (tree : Tree) : Prop :=
  ∃ depth, unfoldTo? layer depth id = some tree

theorem unfoldSlots?_congr {below : ι → Option Tree} {below' : κ → Option Tree} {R : ι → κ → Prop}
    (hbelow : ∀ a b, R a b → below a = below' b) {slots : List (Option ι)}
    {slots' : List (Option κ)} (h : List.Forall₂ (Option.Rel R) slots slots') :
    unfoldSlots? below slots = unfoldSlots? below' slots' := by
  induction h with
  | nil => rfl
  | cons hslot _ ih =>
    cases hslot with
    | none => simp only [unfoldSlots?, ih]
    | some hab => simp only [unfoldSlots?, ih, hbelow _ _ hab]

/-- Two layers look alike under `R`: matched handles have one label and matched slots. -/
def Alike (R : ι → κ → Prop) (layer : Layer ι) (layer' : Layer κ) : Prop :=
  ∀ a b, R a b → ∃ label slots slots', layer a = some (label, slots) ∧
    layer' b = some (label, slots') ∧ List.Forall₂ (Option.Rel R) slots slots'

theorem unfoldTo?_eq_of_alike {R : ι → κ → Prop} {layer : Layer ι} {layer' : Layer κ}
    (h : Alike R layer layer') (depth : ℕ) {a : ι} {b : κ} (hab : R a b) :
    unfoldTo? layer depth a = unfoldTo? layer' depth b := by
  induction depth generalizing a b with
  | zero => rfl
  | succ depth ih =>
    obtain ⟨label, slots, slots', ha, hb, hslots⟩ := h a b hab
    have hbelow := unfoldSlots?_congr (fun _ _ hR => ih hR) hslots
    simp only [unfoldTo?, ha, hb, hbelow]

/-- Matched handles stand for the same trees. -/
theorem unfolds_iff_of_alike {R : ι → κ → Prop} {layer : Layer ι} {layer' : Layer κ}
    (h : Alike R layer layer') {a : ι} {b : κ} (hab : R a b) (tree : Tree) :
    Unfolds layer a tree ↔ Unfolds layer' b tree :=
  exists_congr fun depth => by rw [unfoldTo?_eq_of_alike h depth hab]

theorem unfoldSlots?_mono {below below' : ι → Option Tree}
    (h : ∀ a tree, below a = some tree → below' a = some tree) {slots : List (Option ι)}
    {trees : List (Option Tree)} (hslots : unfoldSlots? below slots = some trees) :
    unfoldSlots? below' slots = some trees := by
  induction slots generalizing trees with
  | nil => exact hslots
  | cons slot rest ih =>
    cases slot with
    | none =>
      rw [unfoldSlots?, Option.map_eq_some_iff] at hslots
      obtain ⟨trees', hrest, rfl⟩ := hslots
      rw [unfoldSlots?, ih hrest]
      rfl
    | some child =>
      simp only [unfoldSlots?] at hslots
      split at hslots
      · rename_i tree trees' htree hrest
        cases hslots
        simp only [unfoldSlots?, h child tree htree, ih hrest]
      · cases hslots

theorem unfoldTo?_succ {layer : Layer ι} {depth : ℕ} {id : ι} {tree : Tree}
    (h : unfoldTo? layer depth id = some tree) : unfoldTo? layer (depth + 1) id = some tree := by
  induction depth generalizing id tree with
  | zero => cases h
  | succ depth ih =>
    rw [unfoldTo?] at h ⊢
    split at h
    · cases h
    · rename_i label slots _
      obtain ⟨trees, htrees, rfl⟩ := Option.map_eq_some_iff.mp h
      rw [unfoldSlots?_mono (fun _ _ => ih) htrees]
      rfl

theorem unfoldTo?_of_le {layer : Layer ι} {depth deeper : ℕ} (hle : depth ≤ deeper) {id : ι}
    {tree : Tree} (h : unfoldTo? layer depth id = some tree) :
    unfoldTo? layer deeper id = some tree := by
  induction deeper, hle using Nat.le_induction with
  | base => exact h
  | succ deeper _ ih => exact unfoldTo?_succ ih

/-- A handle stands for one tree at most. -/
theorem Unfolds.unique {layer : Layer ι} {id : ι} {tree tree' : Tree}
    (h : Unfolds layer id tree) (h' : Unfolds layer id tree') : tree = tree' := by
  obtain ⟨depth, hdepth⟩ := h
  obtain ⟨depth', hdepth'⟩ := h'
  have hmax := unfoldTo?_of_le (le_max_left depth depth') hdepth
  rw [unfoldTo?_of_le (le_max_right depth depth') hdepth'] at hmax
  exact (Option.some.inj hmax).symm

theorem exists_unfoldSlots? {below : ι → Option Tree} {slots : List (Option ι)}
    (h : ∀ child, some child ∈ slots → ∃ tree, below child = some tree) :
    ∃ trees, unfoldSlots? below slots = some trees := by
  induction slots with
  | nil => exact ⟨[], rfl⟩
  | cons slot rest ih =>
    obtain ⟨trees, htrees⟩ := ih fun child hchild => h child (List.mem_cons_of_mem _ hchild)
    cases slot with
    | none => exact ⟨none :: trees, by rw [unfoldSlots?, htrees]; rfl⟩
    | some child =>
      obtain ⟨tree, htree⟩ := h child List.mem_cons_self
      exact ⟨some tree :: trees, by simp only [unfoldSlots?, htree, htrees]⟩

/-- Where the slots of every handle refer to handles of lower rank, all of them have trees, and the
rank bounds the levels. -/
theorem exists_unfoldTo? {layer : Layer ι} {P : ι → Prop} {rank : ι → ℕ}
    (h : ∀ id, P id → ∃ label slots, layer id = some (label, slots) ∧
      ∀ child, some child ∈ slots → P child ∧ rank child < rank id) {id : ι} (hid : P id) :
    ∃ tree, unfoldTo? layer (rank id + 1) id = some tree := by
  suffices hdepth : ∀ depth id, P id → rank id < depth →
      ∃ tree, unfoldTo? layer depth id = some tree from
    hdepth (rank id + 1) id hid (Nat.lt_succ_self _)
  intro depth
  induction depth with
  | zero => exact fun id _ hlt => absurd hlt (Nat.not_lt_zero _)
  | succ depth ih =>
    intro id hid hlt
    obtain ⟨label, slots, hlayer, hslots⟩ := h id hid
    have hbelow : ∀ child, some child ∈ slots →
        ∃ tree, unfoldTo? layer depth child = some tree := by
      intro child hchild
      obtain ⟨hknown, hlower⟩ := hslots child hchild
      exact ih child hknown (hlower.trans_le (Nat.le_of_lt_succ hlt))
    obtain ⟨trees, htrees⟩ := exists_unfoldSlots? hbelow
    exact ⟨.node label trees, by simp only [unfoldTo?, hlayer, htrees, Option.map_some]⟩

/-- Where every slot refers to a smaller number, every number below the bound has a tree. -/
theorem exists_unfolds {layer : Layer ℕ} {bound : ℕ}
    (h : ∀ i < bound, ∃ label slots, layer i = some (label, slots) ∧
      ∀ child, some child ∈ slots → child < i) {i : ℕ} (hi : i < bound) :
    ∃ tree, Unfolds layer i tree := by
  have hbelow : ∀ j < bound, ∃ label slots, layer j = some (label, slots) ∧
      ∀ child, some child ∈ slots → child < bound ∧ id child < id j := by
    intro j hj
    obtain ⟨label, slots, hlayer, hslots⟩ := h j hj
    refine ⟨label, slots, hlayer, ?_⟩
    intro child hchild
    exact ⟨(hslots child hchild).trans hj, hslots child hchild⟩
  obtain ⟨tree, htree⟩ := exists_unfoldTo? hbelow hi
  exact ⟨tree, i + 1, htree⟩

theorem forall₂_of_unfoldSlots? {below : ι → Option Tree} {slots : List (Option ι)}
    {trees : List (Option Tree)} (h : unfoldSlots? below slots = some trees) :
    List.Forall₂ (Option.Rel fun child tree => below child = some tree) slots trees := by
  induction slots generalizing trees with
  | nil =>
    cases h
    exact .nil
  | cons slot rest ih =>
    cases slot with
    | none =>
      rw [unfoldSlots?, Option.map_eq_some_iff] at h
      obtain ⟨trees', hrest, rfl⟩ := h
      exact .cons .none (ih hrest)
    | some child =>
      simp only [unfoldSlots?] at h
      split at h
      · rename_i tree trees' htree hrest
        cases h
        exact .cons (.some htree) (ih hrest)
      · cases h

theorem slots_of_unfoldTo? {layer : Layer ι} {depth : ℕ} {id : ι} {label : Label}
    {trees : List (Option Tree)} (h : unfoldTo? layer (depth + 1) id = some (.node label trees)) :
    ∃ slots, layer id = some (label, slots) ∧
      List.Forall₂ (Option.Rel fun child tree => unfoldTo? layer depth child = some tree)
        slots trees := by
  rw [unfoldTo?] at h
  split at h
  · cases h
  · rename_i label' slots hlayer
    obtain ⟨trees', htrees, heq⟩ := Option.map_eq_some_iff.mp h
    cases heq
    exact ⟨slots, hlayer, forall₂_of_unfoldSlots? htrees⟩

/-- What stands in the slots of a tree is what the handles in the slots stand for. -/
theorem Unfolds.slots {layer : Layer ι} {id : ι} {label : Label} {trees : List (Option Tree)}
    (h : Unfolds layer id (.node label trees)) :
    ∃ slots, layer id = some (label, slots) ∧
      List.Forall₂ (Option.Rel (Unfolds layer)) slots trees := by
  obtain ⟨_ | depth, h⟩ := h
  · cases h
  · obtain ⟨slots, hlayer, hslots⟩ := slots_of_unfoldTo? h
    refine ⟨slots, hlayer, hslots.imp ?_⟩
    rintro _ _ (hchild | _)
    · exact .some ⟨depth, hchild⟩
    · exact .none

theorem exists_child_of_mem {R : ι → Tree → Prop} {slots : List (Option ι)}
    {trees : List (Option Tree)} (h : List.Forall₂ (Option.Rel R) slots trees) {tree : Tree}
    (hmem : some tree ∈ trees) : ∃ child, some child ∈ slots ∧ R child tree := by
  induction h with
  | nil => cases hmem
  | cons hslot _ ih =>
    rcases List.mem_cons.mp hmem with rfl | hmem
    · cases hslot with
      | some hchild => exact ⟨_, List.mem_cons_self, hchild⟩
    · obtain ⟨child, hslot, hchild⟩ := ih hmem
      exact ⟨child, List.mem_cons_of_mem _ hslot, hchild⟩

/-- What holds of a tree as soon as it holds of the trees in its slots holds of every tree. -/
@[induction_eliminator]
theorem induction {motive : Tree → Prop}
    (node : ∀ label slots, (∀ tree, some tree ∈ slots → motive tree) → motive (.node label slots))
    (tree : Tree) : motive tree := by
  refine @Tree.rec motive (fun slots => ∀ tree, some tree ∈ slots → motive tree)
    (fun slot => ∀ tree, slot = some tree → motive tree) node ?_ ?_ ?_ ?_ tree
  · intro tree hmem
    cases hmem
  · intro slot rest hslot hrest tree hmem
    obtain heq | hmem := List.mem_cons.mp hmem
    · exact hslot tree heq.symm
    · exact hrest tree hmem
  · intro tree heq
    cases heq
  · intro held hheld tree heq
    cases heq
    exact hheld

end Tree

/-- An arena as a layer of nodes. -/
def Arena.layer (arena : Arena) : Tree.Layer NodeId := fun id =>
  (arena.get? id).map fun n => (n.label, n.slots)

theorem Arena.layer_eq_some_iff {arena : Arena} {id : NodeId} {label : Label}
    {slots : List (Option NodeId)} : arena.layer id = some (label, slots) ↔
      ∃ n, arena.get? id = some n ∧ n.label = label ∧ n.slots = slots := by
  simp only [layer, Option.map_eq_some_iff, Prod.mk.injEq]

/-- The root of the tree of an id shows the node that the id names. -/
theorem Arena.exists_node_of_unfolds {arena : Arena} {id : NodeId} {label : Label}
    {trees : List (Option Tree)} (h : Tree.Unfolds arena.layer id (.node label trees)) :
    ∃ n, arena.get? id = some n ∧ n.label = label ∧
      List.Forall₂ (Option.Rel (Tree.Unfolds arena.layer)) n.slots trees := by
  obtain ⟨slots, hlayer, hslots⟩ := h.slots
  obtain ⟨n, hget, hlabel, rfl⟩ := layer_eq_some_iff.mp hlayer
  exact ⟨n, hget, hlabel, hslots⟩

end GreenTree
