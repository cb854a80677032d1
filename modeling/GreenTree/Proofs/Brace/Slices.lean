import GreenTree.Proofs.Brace.Collection
import GreenTree.Proofs.Store.Cleanliness

/-!
# Brace pairs in the text

Offsets come from the widths that nodes were stored with, texts from a walk over the tokens. Both
follow the tree under the root, so the spans of a pair cut the texts of two of its tokens out of the
text of the root.
-/

namespace GreenTree

/-- Below `root` there is a present token of this kind whose text has these bytes. -/
def Arena.ShowsToken (arena : Arena) (root : NodeId) (kind : Kind) (bytes : ByteArray) : Prop :=
  ∃ id n text, arena.Below root id ∧ arena.get? id = some n ∧
    BraceKinds.isPresentToken n kind = true ∧ n.text = some text ∧ bytes = text.toUTF8

namespace Arena

variable {a : Arena} {root : NodeId} {offset place : ℕ} {tree other : Tree}

theorem width_of_unfolds {n : Node} (htree : Tree.Unfolds a.layer root tree)
    (hget : a.get? root = some n) : n.width.toNat = tree.width := by
  obtain ⟨label, slots⟩ := tree
  obtain ⟨m, hm, rfl, -⟩ := exists_node_of_unfolds htree
  rw [hget] at hm
  cases hm
  rfl

/-- What lies in the tree of an id is the tree of an id below. -/
theorem exists_below_of_occurs (htree : Tree.Unfolds a.layer root tree)
    (h : Tree.Occurs offset tree place other) :
    ∃ id, a.Below root id ∧ Tree.Unfolds a.layer id other := by
  induction h generalizing root with
  | self offset tree => exact ⟨root, .self root, htree⟩
  | inside hchild _ ih =>
    obtain ⟨n, hget, -, hslots⟩ := exists_node_of_unfolds htree
    obtain ⟨child, hslot, hunfolds⟩ :=
      Tree.exists_child_of_mem hslots (Tree.mem_slots_of_sideBySide hchild)
    obtain ⟨id, hbelow, hid⟩ := ih hunfolds
    exact ⟨id, .child hget (NodeKey.mem_children_iff.mpr hslot) hbelow, hid⟩

/-- A present token in the tree of an id shows its text. -/
theorem showsToken_of_occurs (htree : Tree.Unfolds a.layer root tree) (hexact : tree.Exact)
    (h : Tree.Occurs offset tree place other) (hpresent : other.isPresentToken = true) :
    a.ShowsToken root other.label.kind other.text.toUTF8 := by
  obtain ⟨id, hbelow, hid⟩ := exists_below_of_occurs htree h
  obtain ⟨hother, -⟩ := h.exists_text hexact
  cases hother with
  | @node label slots _ hleaf _ =>
    obtain ⟨n, hget, rfl, -⟩ := exists_node_of_unfolds hid
    have htoken : n.text ≠ none := by
      rw [Tree.isPresentToken, Bool.and_eq_true] at hpresent
      exact Option.isSome_iff_ne_none.mp hpresent.1
    obtain ⟨text, htext⟩ := Option.ne_none_iff_exists'.mp htoken
    obtain rfl : slots = [] := hleaf htoken
    refine ⟨id, n, text, hbelow, hget, ?_, htext, ?_⟩
    · rw [BraceKinds.isPresentToken, Bool.and_right_comm, Bool.and_eq_true]
      exact ⟨hpresent, beq_self_eq_true n.kind⟩
    · change (n.text.getD "" ++ "").toUTF8 = text.toUTF8
      rw [htext, Option.getD_some, String.append_empty]

end Arena

namespace BraceKinds

/-- The spans of a pair of a tree cut two tokens out of its text, the one before the other. -/
theorem spans_of_mem_pairsFrom {a : Arena} {root : NodeId} {tree : Tree} {pair : BracePair}
    {closing : Kind → Option Kind} (htree : Tree.Unfolds a.layer root tree) (hexact : tree.Exact)
    (hsize : tree.text.utf8ByteSize ≤ Limits.maxWidth.toNat)
    (hpair : pair ∈ tree.pairsFrom closing 0) :
    ∃ kind kind', closing kind = some kind' ∧ pair.opening.endNat ≤ pair.closing.start.toNat ∧
      pair.closing.endNat ≤ tree.width ∧ a.ShowsToken root kind (pair.opening.bytesOf tree.text) ∧
      a.ShowsToken root kind' (pair.closing.bytesOf tree.text) := by
  obtain ⟨p, q, hp, hq, horder, hopener, hcloser, hkind, rfl⟩ := Tree.opens_of_mem_pairsFrom hpair
  obtain ⟨hstart, -, hopening⟩ := hp.bytesOf_spanAt hexact hsize
  obtain ⟨hstart', hend, hclosing⟩ := hq.bytesOf_spanAt hexact hsize
  refine ⟨p.2.label.kind, q.2.label.kind, hkind, ?_, ?_, ?_, ?_⟩
  · rw [Span.endNat, hstart, hstart']
    exact horder
  · rw [hexact.width_eq]
    exact hend
  · rw [hopening]
    exact Arena.showsToken_of_occurs htree hexact hp hopener
  · rw [hclosing]
    exact Arena.showsToken_of_occurs htree hexact hq hcloser

/-- Spans agree with the text. Whatever known ids the nodes of a run are built over, every id has a
text, and while it has no more bytes than a node can be wide, the opening token of every pair that
is collected ends before the closing one starts, the closing one ends before the root does, and the
bytes at their spans are the texts of present tokens of a kind and of the kind that closes it. -/
theorem collected_spans_cut_out_tokens (instanceNumber : ℕ) (cache : Cache)
    {actions : List Store.Action}
    (hknown : (Store.ofCache instanceNumber cache).Obeys Action.overKnown actions)
    (b : BraceKinds) (root : NodeId) :
    let arena := ((Store.ofCache instanceNumber cache).run actions).arena
    ∃ text, arena.text root = .ok text ∧ (text.utf8ByteSize ≤ Limits.maxWidth.toNat →
      ∃ found, b.collect arena root = .ok found ∧ ∀ pair ∈ found,
        ∃ n kind kind', arena.get? root = some n ∧ b.closing? kind = some kind' ∧
          pair.opening.endNat ≤ pair.closing.start.toNat ∧ pair.closing.endNat ≤ n.width.toNat ∧
          arena.ShowsToken root kind (pair.opening.bytesOf text) ∧
          arena.ShowsToken root kind' (pair.closing.bytesOf text)) := by
  intro arena
  obtain ⟨rank, hground⟩ := Store.grounded_run instanceNumber cache hknown
  rcases hget : arena.get? root with _ | n
  · refine ⟨"", Arena.text_of_unknown hget, ?_⟩
    intro _
    refine ⟨[], collect_of_isToken fun n hn => ?_, by simp⟩
    rw [hget] at hn
    cases hn
  · obtain ⟨tree, htree, hcount⟩ := hground.exists_tree hget
    refine ⟨tree.text, Arena.text_eq htree hcount, ?_⟩
    intro hsize
    have hexact := hground.exact htree hsize
    refine ⟨_, collect_eq htree hcount hexact hsize, ?_⟩
    intro pair hpair
    rw [List.mem_mergeSort] at hpair
    obtain ⟨kind, kind', hkind, hspans⟩ := spans_of_mem_pairsFrom htree hexact hsize hpair
    rw [← Arena.width_of_unfolds htree hget] at hspans
    exact ⟨n, kind, kind', rfl, hkind, hspans⟩

/-- The text is `é«é»` and has two bytes for each character. The pair stands in a decorated copy,
with an empty slot and a missing closing token between its tokens. -/
theorem collected_spans_cut_out_tokens_of_two_bytes :
    let actions : List Store.Action := [.request (.token ⟨10⟩ "«"), .request (.token ⟨11⟩ "»"),
      .request (.token ⟨12⟩ "é"), .request (.missingToken ⟨11⟩),
      .request (.node ⟨20⟩ .present [some ⟨60⟩, none, some ⟨56⟩, some ⟨13⟩, some ⟨61⟩]),
      .request (.annotate ⟨35⟩ []), .request (.defaultNode ⟨21⟩ [some ⟨56⟩, some ⟨22⟩])]
    let b := ofList [(⟨10⟩, ⟨11⟩)]
    let start := Store.ofCache 1 (.ofBits 4)
    let arena := (start.run actions).arena
    let pair : BracePair := ⟨⟨2, 2⟩, ⟨6, 2⟩⟩
    start.Obeys Action.overKnown actions ∧ arena.text ⟨32⟩ = .ok "é«é»" ∧
      b.collect arena ⟨32⟩ = .ok [pair] ∧ pair.opening.bytesOf "é«é»" = "«".toUTF8 ∧
      ∃ n kind kind', arena.get? ⟨32⟩ = some n ∧ b.closing? kind = some kind' ∧
        pair.closing.endNat ≤ n.width.toNat ∧ arena.ShowsToken ⟨32⟩ kind "«".toUTF8 ∧
        arena.ShowsToken ⟨32⟩ kind' "»".toUTF8 := by
  intro actions b start arena pair
  have hknown : start.Obeys Action.overKnown actions := by decide +kernel
  have htext : Outcome.passes (arena.text ⟨32⟩) (· == "é«é»") = true := by decide +kernel
  have hwalk : Outcome.passes (b.collectFrom arena arena.walkBound [(⟨32⟩, 0)] #[])
      (· == #[pair]) = true := by decide +kernel
  have hopening : pair.opening.bytesOf "é«é»" = "«".toUTF8 := by decide +kernel
  have hclosing : pair.closing.bytesOf "é«é»" = "»".toUTF8 := by decide +kernel
  obtain ⟨text, htext, heq⟩ := Outcome.exists_of_passes htext
  obtain rfl : text = "é«é»" := beq_iff_eq.mp heq
  obtain ⟨walked, hwalk, heq⟩ := Outcome.exists_of_passes hwalk
  obtain rfl : walked = #[pair] := beq_iff_eq.mp heq
  have hcollect : b.collect arena ⟨32⟩ = .ok [pair] := by
    rw [collect, hwalk, Outcome.ok_bind, List.mergeSort_singleton]
    rfl
  obtain ⟨text', htext', hfound⟩ := collected_spans_cut_out_tokens 1 (.ofBits 4) hknown b ⟨32⟩
  obtain rfl : "é«é»" = text' := Except.ok.inj (htext.symm.trans htext')
  obtain ⟨found, hfound, hpairs⟩ := hfound (by decide)
  obtain rfl : [pair] = found := Except.ok.inj (hcollect.symm.trans hfound)
  obtain ⟨n, kind, kind', hget, hkind, -, hend, hshows, hshows'⟩ :=
    hpairs pair (List.mem_singleton_self pair)
  rw [hopening] at hshows
  rw [hclosing] at hshows'
  exact ⟨hknown, htext, hcollect, hopening, n, kind, kind', hget, hkind, hend, hshows, hshows'⟩

end BraceKinds
end GreenTree
