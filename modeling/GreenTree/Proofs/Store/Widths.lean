import GreenTree.Proofs.Store.Replies
import GreenTree.Proofs.Store.Texts

/-!
# Widths of texts

Children are stored before their parents, so gathering the text of a node comes to an end, and what
it gathers is the text of the tree below. The width that was fixed when the node was stored is the
size of this text, capped where widths end.
-/

namespace GreenTree
namespace Store

variable {s s' : Store} {asked : Request NodeId} {id : NodeId}

/-- A request for a node over slots, or for a node of its own, is answered with a known id. -/
theorem contains_of_answer (hs : s.tokens.Coherent s.arena) (h : s.answer asked = .ok (id, s'))
    (hnode : asked.key? ≠ none ∨ asked.isUnshared s.arena = true) :
    s'.arena.contains id = true := by
  obtain hkey | hunshared := hnode
  · obtain ⟨key, hkey⟩ := Option.ne_none_iff_exists'.mp hkey
    obtain ⟨n, hget, -⟩ := key_of_answer hs h (Arena.node?_of_key? hkey)
    exact Option.isSome_iff_exists.mpr ⟨n, hget⟩
  · obtain ⟨-, n, hget, -⟩ := unshared_of_answer hunshared h
    exact Option.isSome_iff_exists.mpr ⟨n, hget⟩

/-- Width is the size of the text. While only known ids are passed for children, every slot of every
node names a node that was stored before it, so every id has a text, which is the text of its tree,
and the node is as wide as this text has bytes, as far as widths go. This holds of whatever a
request for a node or for a decorated copy is answered with, built or reused. -/
theorem width_is_size_of_text (instanceNumber : ℕ) (cache : Cache) {events : List Event}
    (hknown : ∀ r ∈ ((ofCache instanceNumber cache).attend events).1, r.overKnown = true) :
    let replies := ((ofCache instanceNumber cache).attend events).1
    let last := ((ofCache instanceNumber cache).attend events).2
    (∀ id n, last.arena.get? id = some n → ∃ r ∈ replies, r.id = id ∧
        r.before.arena.contains id = false ∧ r.after.arena.get? id = some n ∧
        ∀ child, some child ∈ n.slots → r.before.arena.contains child = true) ∧
      (∀ id n, last.arena.get? id = some n → ∃ tree, Tree.Unfolds last.arena.layer id tree ∧
        last.text id = .ok tree.text ∧
        n.width.toNat = min tree.text.utf8ByteSize Limits.maxWidth.toNat) ∧
      (∀ id, last.arena.get? id = none → last.text id = .ok "") ∧
      ∀ r ∈ replies, r.asked.key? ≠ none ∨ r.asked.isUnshared r.before.arena = true →
        last.arena.contains r.id = true := by
  intro replies last
  obtain ⟨⟨rank, hground⟩, hstored⟩ := attend_founded instanceNumber cache hknown
  refine ⟨?_, ?_, fun id hget => Arena.text_of_unknown hget, ?_⟩
  · intro id n hget
    obtain ⟨r, hr, rfl, ⟨-, hstore⟩, hn⟩ := hstored id n hget
    have hfresh := Arena.get?_fresh_of_storeIn hstore
    refine ⟨r, hr, rfl, by simp [Arena.contains, hfresh], Arena.get?_stored hstore, ?_⟩
    intro child hchild
    exact Option.isSome_iff_exists.mpr (hn.known child (NodeKey.mem_children_iff.mpr hchild))
  · intro id n hget
    obtain ⟨tree, htree, hcount⟩ := hground.exists_tree hget
    refine ⟨tree, htree, Arena.text_eq htree hcount, ?_⟩
    rw [← hground.width_eq htree]
    obtain ⟨label, slots⟩ := tree
    obtain ⟨m, hm, rfl, -⟩ := Arena.exists_node_of_unfolds htree
    rw [hget, Option.some.injEq] at hm
    rw [hm]
    rfl
  · intro r hr hnode
    have htokens := tokens_coherent_ofCache instanceNumber cache
    obtain ⟨hbefore, hanswer, hlater⟩ := (attend_spec htokens events).2 r hr
    obtain ⟨n, hget⟩ := Option.isSome_iff_exists.mp (contains_of_answer hbefore hanswer hnode)
    exact Option.isSome_iff_exists.mpr ⟨n, hlater.arena r.id n hget⟩

/-- A node is built, found again and copied with an empty list of diagnostics. Five levels of 64
slots each make a document of `2 ^ 32` bytes of the copy, which is wider than widths go. -/
theorem width_is_size_of_text_beyond_widths :
    let wide (id : NodeId) : Event := .request (.list (List.replicate 64 id))
    let events : List Event := [.request (.token ⟨10⟩ "é"),
      .request (.node ⟨20⟩ .present [some ⟨2⟩, none, some ⟨2⟩]),
      .request (.defaultNode ⟨20⟩ [some ⟨2⟩, none, some ⟨2⟩]), .request (.diagnose ⟨31⟩ []),
      wide ⟨38⟩, wide ⟨60⟩, wide ⟨39⟩, wide ⟨15⟩, wide ⟨51⟩]
    let replies := ((ofCache 1 (.ofBits 4)).attend events).1
    let last := ((ofCache 1 (.ofBits 4)).attend events).2
    (∀ r ∈ replies, r.overKnown = true) ∧
      replies.map (·.id) = [⟨2⟩, ⟨31⟩, ⟨31⟩, ⟨38⟩, ⟨60⟩, ⟨39⟩, ⟨15⟩, ⟨51⟩, ⟨37⟩] ∧
      (∃ text, last.text ⟨38⟩ = .ok text ∧ text.utf8ByteSize = 4) ∧
      ∃ text, last.text ⟨37⟩ = .ok text ∧ Limits.maxWidth.toNat ≤ text.utf8ByteSize := by
  intro wide events replies last
  have hknown : ∀ r ∈ replies, r.overKnown = true := by decide +kernel
  have hids : replies.map (·.id) = [⟨2⟩, ⟨31⟩, ⟨31⟩, ⟨38⟩, ⟨60⟩, ⟨39⟩, ⟨15⟩, ⟨51⟩, ⟨37⟩] := by
    decide +kernel
  have hwidths : (last.arena.get? ⟨38⟩).map (·.width) = some 4 ∧
      (last.arena.get? ⟨37⟩).map (·.width) = some Limits.maxWidth := by
    decide +kernel
  obtain ⟨-, htexts, -, -⟩ := width_is_size_of_text 1 (.ofBits 4) hknown
  obtain ⟨n, hget, hn⟩ := Option.map_eq_some_iff.mp hwidths.1
  obtain ⟨m, hget', hm⟩ := Option.map_eq_some_iff.mp hwidths.2
  obtain ⟨tree, -, htext, hwidth⟩ := htexts ⟨38⟩ n hget
  obtain ⟨tree', -, htext', hwidth'⟩ := htexts ⟨37⟩ m hget'
  refine ⟨hknown, hids, ⟨tree.text, htext, ?_⟩, tree'.text, htext', ?_⟩
  · rw [hn] at hwidth
    change 4 = min tree.text.utf8ByteSize 4294967295 at hwidth
    omega
  · rw [hm] at hwidth'
    exact hwidth'.le.trans (Nat.min_le_left _ _)

end Store
end GreenTree
