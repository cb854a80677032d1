import GreenTree.Brace.Collect
import GreenTree.Proofs.Brace.Listing
import GreenTree.Proofs.IntervalTree.Iteration

/-!
# Collection of brace pairs

The walk over a shared tree keeps the nodes still to come with their offsets, and it meets a node as
often as the node occurs. What it finds below one node is therefore what the tree of that node lists
from its offset on, and in the end the list is sorted.
-/

namespace GreenTree
namespace BraceKinds

open Outcome

/-- A pair lies where its opening token does. -/
instance : Spanned BracePair := ⟨BracePair.opening⟩

/-- The kind that the last pair of an opening kind closes it with. -/
def lastCloser (pairs : List (Kind × Kind)) (opening : Kind) : Option Kind :=
  (pairs.filter fun p => p.1 = opening).getLast?.map Prod.snd

theorem closing?_ofList (pairs : List (Kind × Kind)) (opening : Kind) :
    (ofList pairs).closing? opening = lastCloser pairs opening := by
  induction pairs using List.reverseRecOn with
  | nil => rfl
  | append_singleton pairs p ih =>
    have hadd : ofList (pairs ++ [p]) = ⟨p :: (ofList pairs).pairs⟩ := by
      rw [ofList, List.foldl_append]
      rfl
    rw [hadd, closing?, List.lookup_cons, lastCloser, List.filter_append]
    by_cases hp : p.1 = opening
    · simp [hp]
    · have hne : (opening == p.1) = false := beq_eq_false_iff_ne.mpr (Ne.symm hp)
      simp only [hne, hp, decide_false, Bool.false_eq_true, not_false_eq_true,
        List.filter_cons_of_neg, List.filter_nil, List.append_nil]
      exact ih

/-- The placed node is the root of this tree and lies where the tree does. -/
structure Stands (a : Arena) (p : Placed) (q : ℕ × Tree) : Prop where
  unfolds : Tree.Unfolds a.layer p.id q.2
  label : p.node.label = q.2.label
  start : p.span.start.toNat = q.1
  span : p.span = q.2.spanAt q.1

variable {a : Arena} {b : BraceKinds} {ids : List (Option NodeId)} {slots : List (Option Tree)}
  {tree : Tree} {root : NodeId} {offset : UInt32} {children : List Placed}
  {siblings : List (ℕ × Tree)}

section Steps

variable {id : NodeId} {n : Node} (hget : a.get? id = some n)

include hget

theorem place_cons (hfits : (Span.mk offset n.width).Fits) {rest : List NodeId}
    (hlater : place a (Offset.cappedSum offset n.width) rest = .ok children) :
    place a offset (id :: rest) = .ok (⟨id, n, ⟨offset, n.width⟩⟩ :: children) := by
  rw [place]
  simp only [hget, Span.ofLength_of_fits hfits, hlater, ok_bind]
  rfl

theorem collectFrom_token (htoken : n.isToken = true) (fuel : ℕ)
    (pending : List (NodeId × UInt32)) (found : Array BracePair) :
    b.collectFrom a (fuel + 1) ((id, offset) :: pending) found =
      b.collectFrom a fuel pending found := by
  rw [collectFrom]
  simp only [hget, htoken, ↓reduceIte]

theorem collectFrom_interior (hinterior : ¬ n.isToken = true)
    (hplace : place a offset n.children = .ok children) (fuel : ℕ)
    (pending : List (NodeId × UInt32)) (found : Array BracePair) :
    b.collectFrom a (fuel + 1) ((id, offset) :: pending) found =
      b.collectFrom a fuel (children.map (fun p => (p.id, p.span.start)) ++ pending)
        (found ++ b.pairsAmong children) := by
  rw [collectFrom]
  simp only [hget, hinterior, hplace, ok_bind, Bool.false_eq_true, ↓reduceIte]

end Steps

/-- While there is room for all children, all of them are placed side by side. -/
theorem exists_place (hslots : List.Forall₂ (Option.Rel (Tree.Unfolds a.layer)) ids slots)
    (hroom : offset.toNat + Tree.slotsWidth slots ≤ Limits.maxWidth.toNat) :
    ∃ children, place a offset (ids.filterMap id) = .ok children ∧
      List.Forall₂ (Stands a) children (Tree.sideBySide offset.toNat slots) := by
  induction hslots generalizing offset with
  | nil => exact ⟨[], rfl, .nil⟩
  | @cons _ _ ids rest hslot _ ih =>
    cases hslot with
    | none => exact ih hroom
    | @some child tree htree =>
      obtain ⟨label, below⟩ := tree
      obtain ⟨m, hget, rfl, -⟩ := Arena.exists_node_of_unfolds htree
      rw [Tree.slotsWidth, ← Nat.add_assoc] at hroom
      have hfits : (Span.mk offset m.width).Fits :=
        Nat.lt_succ_of_le ((Nat.le_add_right _ _).trans hroom)
      have hnext := Span.toNat_cappedSum_of_fits hfits
      obtain ⟨later, hlater, hstands⟩ := ih (hnext ▸ hroom)
      rw [hnext] at hstands
      refine ⟨_, place_cons hget hfits hlater, .cons ⟨htree, rfl, rfl, ?_⟩ hstands⟩
      rw [Tree.spanAt, UInt32.ofNat_toNat]
      rfl

theorem Stands.isPresentToken {p : Placed} {q : ℕ × Tree} (h : Stands a p q) :
    (p.node.isToken && !p.node.isMissing) = q.2.isPresentToken ∧ p.node.kind = q.2.label.kind := by
  rw [Tree.isPresentToken, ← h.label]
  exact ⟨rfl, rfl⟩

/-- The first placed child that closes is the first of the trees that does. -/
theorem find?_eq_firstOf? (h : List.Forall₂ (Stands a) children siblings) (kind : Kind) :
    (children.find? fun p => isPresentToken p.node kind).map (·.span) =
      (Tree.firstOf? kind siblings).map fun q => q.2.spanAt q.1 := by
  induction h with
  | nil => rfl
  | @cons p q _ _ hp _ ih =>
    obtain ⟨htoken, hkind⟩ := hp.isPresentToken
    have htest : isPresentToken p.node kind = (q.2.isPresentToken && q.2.label.kind == kind) := by
      rw [isPresentToken, Bool.and_right_comm, htoken, hkind]
    rw [Tree.firstOf?, List.find?_cons, List.find?_cons, htest]
    cases q.2.isPresentToken && q.2.label.kind == kind with
    | true => exact congrArg some hp.span
    | false => exact ih

theorem closingAmong_eq {p : Placed} {q : ℕ × Tree} (hp : Stands a p q)
    (h : List.Forall₂ (Stands a) children siblings) :
    (b.closingAmong p.node children).map (BracePair.mk p.span) =
      Tree.leadingPair? b.closing? (q :: siblings) := by
  obtain ⟨htoken, hkind⟩ := hp.isPresentToken
  rw [closingAmong, htoken, hkind, Tree.leadingPair?]
  split_ifs with hopener
  · cases b.closing? q.2.label.kind with
    | none => rfl
    | some kind =>
      have hfirst := find?_eq_firstOf? h kind
      simp only [hfirst, hp.span, Option.bind_eq_bind, Option.bind_some]
      cases Tree.firstOf? kind siblings <;> rfl
  · rfl

/-- The pairs among the placed children are those among the trees side by side. -/
theorem pairsAmong_eq (h : List.Forall₂ (Stands a) children siblings) :
    b.pairsAmong children = Tree.siblingPairs b.closing? siblings := by
  induction h with
  | nil => rfl
  | cons hp hrest ih =>
    rw [pairsAmong, Tree.siblingPairs_cons, ← closingAmong_eq hp hrest, ← ih]
    cases b.closingAmong _ _ <;> rfl

theorem append_append (found : Array BracePair) (first later : List BracePair) :
    found ++ first ++ later = found ++ (first ++ later) := by
  apply Array.toList_inj.mp
  simp only [Array.toList_appendList, List.append_assoc]

/-- What the walk finds below the children of a node, when it finds below each what its tree
lists. -/
theorem consumes_children {offset : ℕ}
    (htrees : ∀ tree, some tree ∈ slots → ∀ id start, Tree.Unfolds a.layer id tree →
      start.toNat + tree.text.utf8ByteSize ≤ Limits.maxWidth.toNat →
      Stack.Consumes (b.collectFrom a) [(id, start)] tree.count
        (· ++ tree.pairsFrom b.closing? start.toNat))
    (hexact : ∀ tree, some tree ∈ slots → tree.Exact)
    (hchildren : List.Forall₂ (Stands a) children (Tree.sideBySide offset slots))
    (hroom : offset + (Tree.slotsText slots).utf8ByteSize ≤ Limits.maxWidth.toNat) :
    Stack.Consumes (b.collectFrom a) (children.map fun p => (p.id, p.span.start))
      (Tree.slotsCount slots) (· ++ Tree.pairsBelow b.closing? offset slots) := by
  induction slots generalizing offset children with
  | nil =>
    rw [Tree.sideBySide, List.forall₂_nil_right_iff] at hchildren
    subst hchildren
    exact Stack.consumes_nil.congr fun found => Array.appendList_nil.symm
  | cons slot rest ih =>
    have htreesBelow := fun tree hmem => htrees tree (List.mem_cons_of_mem slot hmem)
    have hexactBelow := fun tree hmem => hexact tree (List.mem_cons_of_mem slot hmem)
    cases slot with
    | none => exact ih htreesBelow hexactBelow hchildren hroom
    | some tree =>
      cases hchildren with
      | @cons p _ later _ hp hlater =>
        have hwidth := (hexact tree List.mem_cons_self).width_eq
        rw [Tree.slotsText, String.utf8ByteSize_append, ← Nat.add_assoc] at hroom
        have hfirst := htrees tree List.mem_cons_self p.id p.span.start hp.unfolds
          (hp.start ▸ (Nat.le_add_right _ _).trans hroom)
        rw [hp.start] at hfirst
        have hrest := ih htreesBelow hexactBelow hlater (hwidth ▸ hroom)
        exact (hfirst.append hrest).congr fun found => append_append found _ _

/-- What the walk finds below a node is what its tree lists. -/
theorem consumes_tree (htree : Tree.Unfolds a.layer root tree) (hexact : tree.Exact)
    (hroom : offset.toNat + tree.text.utf8ByteSize ≤ Limits.maxWidth.toNat) :
    Stack.Consumes (b.collectFrom a) [(root, offset)] tree.count
      (· ++ tree.pairsFrom b.closing? offset.toNat) := by
  induction tree generalizing root offset with
  | node label slots ih =>
    obtain ⟨n, hget, rfl, hslots⟩ := Arena.exists_node_of_unfolds htree
    cases hexact with
    | node hwidth hleaf hexact =>
      rw [Tree.pairsFrom]
      by_cases htoken : n.label.text.isSome = true
      · obtain rfl : slots = [] := hleaf (Option.isSome_iff_ne_none.mp htoken)
        rw [if_pos htoken]
        exact (Stack.consumes_nil.of_step (collectFrom_token hget htoken)).congr fun found =>
          Array.appendList_nil.symm
      · have hbelow : offset.toNat + (Tree.slotsText slots).utf8ByteSize ≤
            Limits.maxWidth.toNat := by
          rw [Tree.text, String.utf8ByteSize_append] at hroom
          omega
        obtain ⟨children, hplace, hchildren⟩ :=
          exists_place hslots ((Tree.slotsWidth_eq hexact).symm ▸ hbelow)
        have htrees := consumes_children (fun tree hmem id start htree =>
          ih tree hmem htree (hexact tree hmem)) hexact hchildren hbelow
        rw [if_neg htoken, ← pairsAmong_eq hchildren]
        exact (htrees.of_step (collectFrom_interior hget htoken hplace)).congr fun found =>
          append_append found _ _

/-- Without an interior node at the root there is nothing to collect. -/
theorem collect_of_isToken (h : ∀ n, a.get? root = some n → n.isToken = true) :
    b.collect a root = .ok [] := by
  obtain ⟨fuel, hfuel⟩ := Nat.exists_eq_add_one_of_ne_zero a.walkBound_pos.ne'
  have hfound : b.collectFrom a a.walkBound [(root, 0)] #[] = .ok #[] := by
    rw [hfuel, collectFrom]
    rcases hget : a.get? root with _ | n
    · simp [collectFrom]
    · simp [h n hget, collectFrom]
  rw [collect, hfound, ok_bind, List.mergeSort_nil]
  rfl

/-- What is collected is what the tree lists, sorted. -/
theorem collect_eq (htree : Tree.Unfolds a.layer root tree) (hcount : tree.count ≤ a.walkBound)
    (hexact : tree.Exact) (hsize : tree.text.utf8ByteSize ≤ Limits.maxWidth.toNat) :
    b.collect a root = .ok ((tree.pairsFrom b.closing? 0).mergeSort IntervalTree.startsBy) := by
  have hroom : (0 : UInt32).toNat + tree.text.utf8ByteSize ≤ Limits.maxWidth.toNat := by
    rwa [UInt32.toNat_zero, Nat.zero_add]
  have hfound := (consumes_tree (b := b) htree hexact hroom).run hcount
    (fun fuel found => by simp [collectFrom]) #[]
  have horder : (fun p q : BracePair => decide (p.opening.start ≤ q.opening.start)) =
      IntervalTree.startsBy := by
    funext p q
    exact decide_eq_decide.mpr UInt32.le_iff_toNat_le
  rw [collect, hfound, ok_bind, horder]
  simp

/-- Collection lists the pairs of a tree and sorts them. Whatever known ids the nodes of a run are
built over, a token or an unknown id yields no pairs, and every other root stands for a tree. While
the text of the tree has no more bytes than a node can be wide, the pairs of the tree are returned
by the start of the opening token, those with one start in pre-order. -/
theorem collection_is_sorted_listing (instanceNumber : ℕ) (cache : Cache)
    {actions : List Store.Action}
    (hknown : (Store.ofCache instanceNumber cache).Obeys Action.overKnown actions)
    (kinds : List (Kind × Kind)) (root : NodeId) :
    let arena := ((Store.ofCache instanceNumber cache).run actions).arena
    ((∀ n, arena.get? root = some n → n.isToken = true) →
        (ofList kinds).collect arena root = .ok []) ∧
      (arena.contains root = true → ∃ tree text, Tree.Unfolds arena.layer root tree ∧
        arena.text root = .ok text ∧ (text.utf8ByteSize ≤ Limits.maxWidth.toNat →
          ∃ found, (ofList kinds).collect arena root = .ok found ∧
            IntervalTree.StablySorted (tree.pairsFrom (lastCloser kinds) 0) found)) := by
  intro arena
  refine ⟨collect_of_isToken, ?_⟩
  intro hroot
  obtain ⟨rank, hground⟩ := Store.grounded_run instanceNumber cache hknown
  obtain ⟨n, hget⟩ := Option.isSome_iff_exists.mp hroot
  obtain ⟨tree, htree, hcount⟩ := hground.exists_tree hget
  refine ⟨tree, tree.text, htree, Arena.text_eq htree hcount, ?_⟩
  intro hsize
  have hclosing : (ofList kinds).closing? = lastCloser kinds := funext (closing?_ofList kinds)
  have hcollect := collect_eq (b := ofList kinds) htree hcount (hground.exact htree hsize) hsize
  rw [hclosing] at hcollect
  exact ⟨_, hcollect, IntervalTree.stablySorted_mergeSort _⟩

/-- The text is `é(é)(éé`, in which one node over `é` occurs three times. A token without text opens
a pair of the root where the first of these nodes opens its own, the last opening token is closed by
a missing one only, and the pairs of the root come before all others in pre-order. -/
theorem collection_is_sorted_listing_of_shared_nodes :
    let actions : List Store.Action := [.request (.token ⟨10⟩ "("), .request (.token ⟨11⟩ ")"),
      .request (.token ⟨12⟩ ""), .request (.token ⟨13⟩ "é"), .request (.missingToken ⟨11⟩),
      .request (.node ⟨20⟩ .present [some ⟨32⟩, none, some ⟨3⟩]),
      .request (.defaultNode ⟨21⟩ [some ⟨30⟩, some ⟨16⟩, some ⟨13⟩]),
      .request (.list [⟨32⟩, ⟨16⟩, ⟨30⟩, ⟨16⟩, ⟨61⟩, ⟨50⟩, ⟨3⟩])]
    let kinds : List (Kind × Kind) := [(⟨10⟩, ⟨12⟩), (⟨12⟩, ⟨13⟩), (⟨10⟩, ⟨11⟩)]
    let start := Store.ofCache 1 (.ofBits 4)
    let arena := (start.run actions).arena
    let outer : BracePair := ⟨⟨0, 0⟩, ⟨9, 2⟩⟩
    let round : BracePair := ⟨⟨2, 1⟩, ⟨5, 1⟩⟩
    let first : BracePair := ⟨⟨0, 0⟩, ⟨0, 2⟩⟩
    let second : BracePair := ⟨⟨3, 0⟩, ⟨3, 2⟩⟩
    let third : BracePair := ⟨⟨7, 0⟩, ⟨7, 2⟩⟩
    start.Obeys Action.overKnown actions ∧ arena.text ⟨58⟩ = .ok "é(é)(éé" ∧
      (ofList kinds).collect arena ⟨30⟩ = .ok [] ∧ ∃ tree,
        Tree.Unfolds arena.layer ⟨58⟩ tree ∧
        tree.pairsFrom (lastCloser kinds) 0 = [outer, round, first, second, third] ∧
        (ofList kinds).collect arena ⟨58⟩ = .ok [outer, first, round, second, third] := by
  intro actions kinds start arena outer round first second third
  have hknown : start.Obeys Action.overKnown actions := by decide +kernel
  have hleaf : (arena.get? ⟨30⟩).all Node.isToken = true := by decide +kernel
  have hroot : arena.contains ⟨58⟩ = true := by decide +kernel
  have htext : Outcome.passes (arena.text ⟨58⟩) (· == "é(é)(éé") = true := by decide +kernel
  have hlisting : (Tree.unfoldTo? arena.layer 4 ⟨58⟩).map (Tree.pairsFrom (lastCloser kinds) 0) =
      some [outer, round, first, second, third] := by decide +kernel
  have horder : [outer, round, first, second, third].mergeSort IntervalTree.startsBy =
      [outer, first, round, second, third] := by cbv
  obtain ⟨text, htext, heq⟩ := exists_of_passes htext
  obtain rfl : text = "é(é)(éé" := beq_iff_eq.mp heq
  have hempty := (collection_is_sorted_listing 1 (.ofBits 4) hknown kinds ⟨30⟩).1
  obtain ⟨-, hcollect⟩ := collection_is_sorted_listing 1 (.ofBits 4) hknown kinds ⟨58⟩
  obtain ⟨tree, text', htree, htext', hfound⟩ := hcollect hroot
  obtain rfl : "é(é)(éé" = text' := Except.ok.inj (htext.symm.trans htext')
  obtain ⟨found, hfound, hsorted⟩ := hfound (by decide)
  obtain ⟨tree', htree', hpairs⟩ := Option.map_eq_some_iff.mp hlisting
  obtain rfl : tree = tree' := htree.unique ⟨4, htree'⟩
  have hsort := hsorted.unique (IntervalTree.stablySorted_mergeSort _)
  rw [hpairs, horder] at hsort
  subst hsort
  refine ⟨hknown, htext, hempty ?_, tree, htree, hpairs, hfound⟩
  intro n hget
  change arena.get? ⟨30⟩ = some n at hget
  rw [hget] at hleaf
  exact hleaf

end BraceKinds
end GreenTree
