import GreenTree.Proofs.Brace.Collection

/-!
# Oversized texts

A node is never wider than offsets reach, however long its text is. Where the widths of some
children leave the offsets, placing them stops the walk. Where they do not, although the texts of
the children together do, one child is as wide as can be, so it starts at offset 0, and the walk
comes to the same question there. Tokens are as wide as their texts, so it is stopped in the end.
-/

namespace GreenTree
namespace BraceKinds

open Outcome

variable {a : Arena} {b : BraceKinds} {ids : List (Option NodeId)} {slots : List (Option Tree)}
  {tree : Tree} {root : NodeId} {offset : UInt32} {children : List Placed}

/-- Without room for all children, placing them is stopped. -/
theorem place_of_no_room (hslots : List.Forall₂ (Option.Rel (Tree.Unfolds a.layer)) ids slots)
    (hover : Limits.maxWidth.toNat < offset.toNat + Tree.slotsWidth slots) :
    ∃ start length, place a offset (ids.filterMap id) =
      .error (.spanEndOverflow start length) := by
  induction hslots generalizing offset with
  | nil =>
    have hword := offset.toNat_lt
    exact absurd hover (Nat.not_lt.mpr (Nat.le_of_lt_succ hword))
  | @cons _ _ ids rest hslot _ ih =>
    cases hslot with
    | none => exact ih hover
    | @some child tree htree =>
      obtain ⟨label, below⟩ := tree
      obtain ⟨m, hget, rfl, -⟩ := Arena.exists_node_of_unfolds htree
      rw [Tree.slotsWidth, ← Nat.add_assoc] at hover
      change ∃ start length, place a offset (child :: ids.filterMap id) = _
      by_cases hfits : (Span.mk offset m.width).Fits
      · have hnext := Span.toNat_cappedSum_of_fits hfits
        obtain ⟨start, length, hlater⟩ := ih (hnext.symm ▸ hover)
        refine ⟨start, length, ?_⟩
        rw [place]
        simp only [hget, Span.ofLength_of_fits hfits, hlater, ok_bind]
        rfl
      · refine ⟨offset, m.width, ?_⟩
        rw [place]
        simp only [hget, Span.ofLength_of_not_fits hfits]
        rfl

theorem collectFrom_of_place_fault {id : NodeId} {n : Node} {fault : Fault}
    (hget : a.get? id = some n) (hinterior : ¬ n.isToken = true)
    (hplace : place a offset n.children = .error fault) (fuel : ℕ)
    (pending : List (NodeId × UInt32)) (found : Array BracePair) :
    b.collectFrom a (fuel + 1) ((id, offset) :: pending) found = .error fault := by
  rw [collectFrom]
  simp only [hget, hinterior, hplace, Bool.false_eq_true, ↓reduceIte]
  rfl

/-- The walk over some items is stopped by a span without an end. -/
def Overflows (b : BraceKinds) (a : Arena) (items : List (NodeId × UInt32)) (steps : ℕ) : Prop :=
  ∃ start length, Stack.Stops (b.collectFrom a) items steps (.spanEndOverflow start length)

/-- Placed children with too much text among them stop the walk, when each with too much text does
that starts at offset 0. -/
theorem overflows_children {offset : ℕ}
    (htrees : ∀ tree, some tree ∈ slots → Limits.maxWidth.toNat < tree.text.utf8ByteSize →
      ∀ id, Tree.Unfolds a.layer id tree → b.Overflows a [(id, 0)] tree.count)
    (hwidth : ∀ tree, some tree ∈ slots →
      tree.width = min tree.text.utf8ByteSize Limits.maxWidth.toNat)
    (hexact : ∀ tree, some tree ∈ slots → tree.text.utf8ByteSize ≤ Limits.maxWidth.toNat →
      tree.Exact)
    (hchildren : List.Forall₂ (Stands a) children (Tree.sideBySide offset slots))
    (hroom : offset + Tree.slotsWidth slots ≤ Limits.maxWidth.toNat)
    (hover : Limits.maxWidth.toNat < offset + (Tree.slotsText slots).utf8ByteSize) :
    b.Overflows a (children.map fun p => (p.id, p.span.start)) (Tree.slotsCount slots) := by
  induction slots generalizing offset children with
  | nil => exact absurd hover (Nat.not_lt.mpr hroom)
  | cons slot rest ih =>
    have htreesBelow := fun tree hmem => htrees tree (List.mem_cons_of_mem slot hmem)
    have hwidthBelow := fun tree hmem => hwidth tree (List.mem_cons_of_mem slot hmem)
    have hexactBelow := fun tree hmem => hexact tree (List.mem_cons_of_mem slot hmem)
    cases slot with
    | none => exact ih htreesBelow hwidthBelow hexactBelow hchildren hroom hover
    | some tree =>
      have hfirst := hwidth tree List.mem_cons_self
      rw [Tree.slotsWidth] at hroom
      rw [Tree.slotsText, String.utf8ByteSize_append] at hover
      cases hchildren with
      | @cons p _ later _ hp hlater =>
        by_cases hsize : tree.text.utf8ByteSize ≤ Limits.maxWidth.toNat
        · -- The first child has its text in full, so those after it have too much.
          rw [Nat.min_eq_left hsize] at hfirst
          have hplace : p.span.start.toNat + tree.text.utf8ByteSize ≤ Limits.maxWidth.toNat := by
            rw [hp.start, ← hfirst]
            change offset + _ ≤ _
            omega
          have hdone := consumes_tree (b := b) hp.unfolds (hexact tree List.mem_cons_self hsize)
            hplace
          obtain ⟨start, length, hstops⟩ := ih htreesBelow hwidthBelow hexactBelow hlater
            (by omega) (by omega)
          exact ⟨start, length, hdone.stops hstops⟩
        · -- The first child is as wide as can be, so it starts at offset 0.
          have hstart : p.span.start = 0 := by
            apply UInt32.toNat_inj.mp
            rw [hp.start]
            change offset = 0
            omega
          obtain ⟨start, length, hstops⟩ := htrees tree List.mem_cons_self
            (Nat.lt_of_not_le hsize) p.id hp.unfolds
          rw [← hstart] at hstops
          exact ⟨start, length, hstops.append _ _⟩

/-- Tokens are as wide as their texts, so a node with more text than that is no token. -/
theorem interior_of_oversized {n : Node} (hn : n.Founded a)
    (hslots : List.Forall₂ (Option.Rel (Tree.Unfolds a.layer)) n.slots slots)
    (hover : Limits.maxWidth.toNat < (Tree.node n.label slots).text.utf8ByteSize) :
    n.text = none := by
  by_contra htoken
  obtain ⟨text, htext⟩ := Option.ne_none_iff_exists'.mp htoken
  obtain ⟨hleaf, hwidth⟩ := hn.token text htext
  rw [hleaf, List.forall₂_nil_left_iff] at hslots
  subst hslots
  have hword := n.width.toNat_lt
  change _ < (n.text.getD "" ++ "").utf8ByteSize at hover
  rw [htext, Option.getD_some, String.append_empty, ← hwidth] at hover
  exact absurd hover (Nat.not_lt.mpr (Nat.le_of_lt_succ hword))

/-- A tree with too much text that starts at offset 0 stops the walk. -/
theorem overflows_tree {rank : NodeId → ℕ} (hground : a.Grounded rank)
    (htree : Tree.Unfolds a.layer root tree)
    (hover : Limits.maxWidth.toNat < tree.text.utf8ByteSize) :
    b.Overflows a [(root, 0)] tree.count := by
  induction tree generalizing root with
  | node label slots ih =>
    obtain ⟨n, hget, rfl, hslots⟩ := Arena.exists_node_of_unfolds htree
    have hinterior := interior_of_oversized (hground.founded root n hget) hslots hover
    have htoken : ¬ n.isToken = true := by simp [Node.isToken, hinterior]
    have hover : Limits.maxWidth.toNat < (Tree.slotsText slots).utf8ByteSize := by
      rw [Tree.text, String.utf8ByteSize_append] at hover
      change _ < (n.text.getD "").utf8ByteSize + _ at hover
      rwa [hinterior, Option.getD_none, String.utf8ByteSize_empty, Nat.zero_add] at hover
    by_cases hroom : (0 : UInt32).toNat + Tree.slotsWidth slots ≤ Limits.maxWidth.toNat
    · obtain ⟨children, hplace, hchildren⟩ := exists_place hslots hroom
      have hbelow : ∀ tree, some tree ∈ slots → ∃ child, Tree.Unfolds a.layer child tree := by
        intro tree hmem
        obtain ⟨child, -, hchild⟩ := Tree.exists_child_of_mem hslots hmem
        exact ⟨child, hchild⟩
      obtain ⟨start, length, hstops⟩ := overflows_children (b := b)
        (fun tree hmem hsize id htree => ih tree hmem htree hsize)
        (fun tree hmem => (hbelow tree hmem).elim fun _ h => hground.width_eq h)
        (fun tree hmem hsize => (hbelow tree hmem).elim fun _ h => hground.exact h hsize)
        hchildren hroom (by rwa [UInt32.toNat_zero, Nat.zero_add])
      exact ⟨start, length, hstops.of_step (collectFrom_interior hget htoken hplace)⟩
    · obtain ⟨start, length, hplace⟩ := place_of_no_room hslots (Nat.lt_of_not_le hroom)
      exact ⟨start, length,
        Stack.stops_of_fault (collectFrom_of_place_fault hget htoken hplace) _⟩

/-- Every root has a text, which is either short enough for its pairs to be returned, or so long
that the walk is stopped. -/
theorem collect_or_overflow {rank : NodeId → ℕ} (hground : a.Grounded rank) (b : BraceKinds)
    (root : NodeId) : ∃ text, a.text root = .ok text ∧
      ((text.utf8ByteSize ≤ Limits.maxWidth.toNat ∧ ∃ found, b.collect a root = .ok found) ∨
        (Limits.maxWidth.toNat < text.utf8ByteSize ∧
          ∃ start length, b.collect a root = .error (.spanEndOverflow start length))) := by
  rcases hget : a.get? root with _ | n
  · refine ⟨"", Arena.text_of_unknown hget, .inl ⟨Nat.zero_le _, [], ?_⟩⟩
    apply collect_of_isToken
    intro n hn
    rw [hget] at hn
    cases hn
  · obtain ⟨tree, htree, hcount⟩ := hground.exists_tree hget
    refine ⟨tree.text, Arena.text_eq htree hcount, ?_⟩
    rcases Nat.lt_or_ge Limits.maxWidth.toNat tree.text.utf8ByteSize with hover | hsize
    · obtain ⟨start, length, hstops⟩ := overflows_tree (b := b) hground htree hover
      refine .inr ⟨hover, start, length, ?_⟩
      rw [collect, hstops.run hcount]
      rfl
    · exact .inl ⟨hsize, _, collect_eq htree hcount (hground.exact htree hsize) hsize⟩

/-- Collection returns pairs as long as the text of the root has no more bytes than offsets reach,
and it is stopped by a span without an end as soon as the text has more. Whatever known ids the
nodes of a run are built over, every root has a text, whose bytes are all counted here, also those
that the widths of the nodes leave out. -/
theorem collection_stops_iff_oversized (instanceNumber : ℕ) (cache : Cache)
    {actions : List Store.Action}
    (hknown : (Store.ofCache instanceNumber cache).Obeys Action.overKnown actions)
    (b : BraceKinds) (root : NodeId) :
    let arena := ((Store.ofCache instanceNumber cache).run actions).arena
    ∃ text, arena.text root = .ok text ∧
      ((∃ start length, b.collect arena root = .error (.spanEndOverflow start length)) ↔
        Limits.maxWidth.toNat < text.utf8ByteSize) ∧
      ((∃ found, b.collect arena root = .ok found) ↔
        text.utf8ByteSize ≤ Limits.maxWidth.toNat) := by
  intro arena
  obtain ⟨rank, hground⟩ := Store.grounded_run instanceNumber cache hknown
  obtain ⟨text, htext, hcases⟩ := collect_or_overflow hground b root
  refine ⟨text, htext, ⟨?_, ?_⟩, ?_, ?_⟩
  · rintro ⟨start, length, hstopped⟩
    obtain ⟨-, found, hfound⟩ | ⟨hover, -⟩ := hcases
    · cases hstopped.symm.trans hfound
    · exact hover
  · intro hover
    obtain ⟨hsize, -⟩ | ⟨-, hstopped⟩ := hcases
    · exact absurd hover (Nat.not_lt.mpr hsize)
    · exact hstopped
  · rintro ⟨found, hfound⟩
    obtain ⟨hsize, -⟩ | ⟨-, start, length, hstopped⟩ := hcases
    · exact hsize
    · cases hstopped.symm.trans hfound
  · intro hsize
    obtain ⟨-, hfound⟩ | ⟨hover, -⟩ := hcases
    · exact hfound
    · exact absurd hsize (Nat.not_le.mpr hover)

/-- Eight levels of sixteen children each make a text of one byte more than offsets reach, from two
tokens and nine nodes. The list of one child on top is as wide as can be, and its only child is
placed without a fault. -/
theorem collection_stops_iff_oversized_by_one_byte :
    let actions : List Store.Action := [.request (.token ⟨10⟩ "("), .request (.token ⟨11⟩ ")"),
      .request (.list (⟨30⟩ :: List.replicate 15 ⟨61⟩)), .request (.list (List.replicate 16 ⟨46⟩)),
      .request (.list (List.replicate 16 ⟨6⟩)), .request (.list (List.replicate 16 ⟨40⟩)),
      .request (.list (List.replicate 16 ⟨23⟩)), .request (.list (List.replicate 16 ⟨48⟩)),
      .request (.list (List.replicate 16 ⟨0⟩)), .request (.list (List.replicate 16 ⟨27⟩)),
      .request (.list [⟨63⟩])]
    let b := ofList [(⟨10⟩, ⟨11⟩)]
    let start := Store.ofCache 1 (.ofBits 4)
    let arena := (start.run actions).arena
    start.Obeys Action.overKnown actions ∧ arena.text ⟨46⟩ = .ok "()))))))))))))))" ∧
      (∃ found, b.collect arena ⟨46⟩ = .ok found) ∧
      (place arena 0 [⟨63⟩]).map List.length = .ok 1 ∧
      ∃ text, arena.text ⟨57⟩ = .ok text ∧ Limits.maxWidth.toNat < text.utf8ByteSize ∧
        b.collect arena ⟨57⟩ = .error (.spanEndOverflow 4026531840 268435456) := by
  intro actions b start arena
  have hknown : start.Obeys Action.overKnown actions := by decide +kernel
  have hshort : arena.text ⟨46⟩ = .ok "()))))))))))))))" := by decide +kernel
  have hplace : (place arena 0 [⟨63⟩]).map List.length = .ok 1 := by decide +kernel
  have hstopped : b.collect arena ⟨57⟩ = .error (.spanEndOverflow 4026531840 268435456) := by
    decide +kernel
  obtain ⟨text, htext, -, hfound⟩ := collection_stops_iff_oversized 1 (.ofBits 4) hknown b ⟨46⟩
  obtain rfl : "()))))))))))))))" = text := Except.ok.inj (hshort.symm.trans htext)
  obtain ⟨text, htext, hover, -⟩ := collection_stops_iff_oversized 1 (.ofBits 4) hknown b ⟨57⟩
  exact ⟨hknown, hshort, hfound.mpr (by decide), hplace, text, htext,
    hover.mp ⟨_, _, hstopped⟩, hstopped⟩

end BraceKinds
end GreenTree
