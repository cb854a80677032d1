import GreenTree.Brace.Pair
import GreenTree.Proofs.Span.Numbers
import GreenTree.Proofs.Store.Texts

/-!
# Brace pairs of a tree

In pre-order, every node lists the pairs among its children before those further below. Children lie
side by side from the start of their parent on, so where a tree is as wide as its text, a pair tells
where two tokens are found in the text.
-/

namespace GreenTree

/-- The bytes of a text at the offsets of a span. -/
def Span.bytesOf (s : Span) (text : String) : ByteArray :=
  text.toUTF8.extract s.start.toNat s.endNat

namespace Tree

/-- Whether the tree is a token that is really there. -/
def isPresentToken (tree : Tree) : Bool := tree.label.text.isSome && !tree.label.flags.isMissing

/-- The span of a tree that starts at this offset. -/
def spanAt (tree : Tree) (offset : ℕ) : Span := ⟨UInt32.ofNat offset, tree.label.width⟩

/-- The trees in some slots side by side, each with the offset at which it starts. -/
def sideBySide : ℕ → List (Option Tree) → List (ℕ × Tree)
  | _, [] => []
  | offset, none :: rest => sideBySide offset rest
  | offset, some tree :: rest => (offset, tree) :: sideBySide (offset + tree.width) rest

/-- The widths of the trees in some slots together. -/
def slotsWidth : List (Option Tree) → ℕ
  | [] => 0
  | none :: rest => slotsWidth rest
  | some tree :: rest => tree.width + slotsWidth rest

/-- The first of some siblings that is a present token of this kind. -/
def firstOf? (kind : Kind) (siblings : List (ℕ × Tree)) : Option (ℕ × Tree) :=
  siblings.find? fun p => p.2.isPresentToken && p.2.label.kind == kind

/-- The pair of the first sibling, if it is an opening token, and the next one that closes it. -/
def leadingPair? (closing : Kind → Option Kind) : List (ℕ × Tree) → Option BracePair
  | [] => none
  | (offset, tree) :: later =>
    if tree.isPresentToken then do
      let kind ← closing tree.label.kind
      let closer ← firstOf? kind later
      pure ⟨tree.spanAt offset, closer.2.spanAt closer.1⟩
    else
      none

/-- The pairs whose opening token is among some siblings. -/
def siblingPairs (closing : Kind → Option Kind) (siblings : List (ℕ × Tree)) : List BracePair :=
  siblings.tails.filterMap (leadingPair? closing)

mutual

/-- The pairs in a tree that starts at this offset, in pre-order. -/
def pairsFrom (closing : Kind → Option Kind) (offset : ℕ) : Tree → List BracePair
  | node label slots =>
    if label.text.isSome then
      []
    else
      siblingPairs closing (sideBySide offset slots) ++ pairsBelow closing offset slots

def pairsBelow (closing : Kind → Option Kind) (offset : ℕ) : List (Option Tree) → List BracePair
  | [] => []
  | none :: rest => pairsBelow closing offset rest
  | some tree :: rest =>
    tree.pairsFrom closing offset ++ pairsBelow closing (offset + tree.width) rest

end

/-- A tree that starts at `offset` has `other` in it, at `place`. -/
inductive Occurs : ℕ → Tree → ℕ → Tree → Prop
  | self (offset : ℕ) (tree : Tree) : Occurs offset tree offset tree
  | inside {offset start place : ℕ} {label : Label} {slots : List (Option Tree)}
      {child other : Tree} (hchild : (start, child) ∈ sideBySide offset slots)
      (hother : Occurs start child place other) : Occurs offset (.node label slots) place other

variable {closing : Kind → Option Kind} {offset start place : ℕ} {slots : List (Option Tree)}
  {tree child other : Tree} {siblings : List (ℕ × Tree)} {pair : BracePair}

theorem slotsWidth_eq (hexact : ∀ tree, some tree ∈ slots → tree.Exact) :
    slotsWidth slots = (slotsText slots).utf8ByteSize := by
  induction slots with
  | nil => rfl
  | cons slot rest ih =>
    have hrest := ih fun tree hmem => hexact tree (List.mem_cons_of_mem _ hmem)
    cases slot with
    | none => exact hrest
    | some tree =>
      have hwidth := (hexact tree List.mem_cons_self).width_eq
      rw [slotsWidth, slotsText, String.utf8ByteSize_append, hwidth, hrest]

theorem mem_slots_of_sideBySide (h : (start, child) ∈ sideBySide offset slots) :
    some child ∈ slots := by
  induction slots generalizing offset with
  | nil => cases h
  | cons slot rest ih =>
    cases slot with
    | none => exact List.mem_cons_of_mem _ (ih h)
    | some tree =>
      rcases List.mem_cons.mp h with heq | hrest
      · cases heq
        exact List.mem_cons_self
      · exact List.mem_cons_of_mem _ (ih hrest)

theorem le_of_mem_sideBySide (h : (start, child) ∈ sideBySide offset slots) : offset ≤ start := by
  induction slots generalizing offset with
  | nil => cases h
  | cons slot rest ih =>
    cases slot with
    | none => exact ih h
    | some tree =>
      rcases List.mem_cons.mp h with heq | hrest
      · cases heq
        exact le_rfl
      · exact (Nat.le_add_right _ _).trans (ih hrest)

/-- Every sibling starts where those before it have ended. -/
theorem pairwise_sideBySide (offset : ℕ) (slots : List (Option Tree)) :
    (sideBySide offset slots).Pairwise fun p q => p.1 + p.2.width ≤ q.1 := by
  induction slots generalizing offset with
  | nil => exact List.Pairwise.nil
  | cons slot rest ih =>
    cases slot with
    | none => exact ih offset
    | some tree => exact List.Pairwise.cons (fun q hq => le_of_mem_sideBySide hq) (ih _)

/-- What lies in a slot is found in the text of the slots at its offset. -/
theorem slotsText_of_mem_sideBySide (hexact : ∀ tree, some tree ∈ slots → tree.Exact)
    (h : (start, child) ∈ sideBySide offset slots) :
    ∃ before after, slotsText slots = before ++ child.text ++ after ∧
      start = offset + before.utf8ByteSize := by
  induction slots generalizing offset with
  | nil => cases h
  | cons slot rest ih =>
    have hbelow : ∀ tree, some tree ∈ rest → tree.Exact := fun tree hmem =>
      hexact tree (List.mem_cons_of_mem _ hmem)
    cases slot with
    | none => exact ih hbelow h
    | some tree =>
      rcases List.mem_cons.mp h with heq | hmem
      · cases heq
        exact ⟨"", slotsText rest, by rw [String.empty_append]; rfl, rfl⟩
      · obtain ⟨before, after, htext, hstart⟩ := ih hbelow hmem
        have hwidth := (hexact tree List.mem_cons_self).width_eq
        refine ⟨tree.text ++ before, after, ?_, ?_⟩
        · rw [slotsText, htext]
          simp only [String.append_assoc]
        · rw [hstart, hwidth, String.utf8ByteSize_append, Nat.add_assoc]

/-- What lies in a tree is found in its text at its offset. -/
theorem Occurs.exists_text (h : Occurs offset tree place other) (hexact : tree.Exact) :
    other.Exact ∧ ∃ before after, tree.text = before ++ other.text ++ after ∧
      place = offset + before.utf8ByteSize := by
  induction h with
  | self offset tree =>
    refine ⟨hexact, "", "", ?_, rfl⟩
    rw [String.empty_append, String.append_empty]
  | @inside offset start place label slots child other hchild _ ih =>
    cases hexact with
    | node _ hleaf hslots =>
      have hmem := mem_slots_of_sideBySide hchild
      obtain ⟨hother, before, after, htext, hplace⟩ := ih (hslots child hmem)
      obtain ⟨before', after', htext', hstart⟩ := slotsText_of_mem_sideBySide hslots hchild
      have hinterior : label.text = none := by
        by_contra htoken
        rw [hleaf htoken] at hmem
        cases hmem
      refine ⟨hother, before' ++ before, after ++ after', ?_, ?_⟩
      · rw [text, hinterior, Option.getD_none, String.empty_append, htext', htext]
        simp only [String.append_assoc]
      · rw [hplace, hstart, String.utf8ByteSize_append, Nat.add_assoc]

theorem toUTF8_extract_append (before text after : String) :
    (before ++ text ++ after).toUTF8.extract before.utf8ByteSize
      (before.utf8ByteSize + text.utf8ByteSize) = text.toUTF8 := by
  have hbefore : (before ++ text).toByteArray.extract before.utf8ByteSize
      (before.utf8ByteSize + text.utf8ByteSize) = text.toByteArray := by
    rw [String.toByteArray_append]
    exact ByteArray.extract_append_eq_right String.size_toByteArray.symm (by simp)
  have hsize : (before ++ text).toByteArray.size = before.utf8ByteSize + text.utf8ByteSize := by
    rw [String.size_toByteArray, String.utf8ByteSize_append]
  rw [String.toUTF8, String.toByteArray_append, ByteArray.extract_append, hbefore, hsize,
    Nat.sub_self, Nat.sub_eq_zero_of_le (Nat.le_add_right _ _)]
  simp

/-- A part of a tree starts at its offset and ends before the tree does, and the bytes at its span
are its text. -/
theorem Occurs.bytesOf_spanAt (h : Occurs 0 tree place other) (hexact : tree.Exact)
    (hsize : tree.text.utf8ByteSize ≤ Limits.maxWidth.toNat) :
    (other.spanAt place).start.toNat = place ∧
      (other.spanAt place).endNat ≤ tree.text.utf8ByteSize ∧
      (other.spanAt place).bytesOf tree.text = other.text.toUTF8 := by
  obtain ⟨hother, before, after, htext, hplace⟩ := h.exists_text hexact
  rw [Nat.zero_add] at hplace
  rw [htext, String.utf8ByteSize_append, String.utf8ByteSize_append, ← hplace] at hsize
  have hfits : place ≤ Limits.maxWidth.toNat := by omega
  have hstart : (other.spanAt place).start.toNat = place :=
    UInt32.toNat_ofNat_of_lt' (Nat.lt_succ_of_le hfits)
  have hend : (other.spanAt place).endNat = place + other.text.utf8ByteSize := by
    rw [Span.endNat, hstart, ← hother.width_eq]
    rfl
  refine ⟨hstart, ?_, ?_⟩
  · rw [hend, htext, String.utf8ByteSize_append, String.utf8ByteSize_append, hplace]
    exact Nat.le_add_right _ _
  · rw [Span.bytesOf, hend, hstart, htext, hplace]
    exact toUTF8_extract_append before other.text after

theorem siblingPairs_cons (closing : Kind → Option Kind) (p : ℕ × Tree)
    (later : List (ℕ × Tree)) : siblingPairs closing (p :: later) =
      (leadingPair? closing (p :: later)).toList ++ siblingPairs closing later := by
  rw [siblingPairs, List.tails_cons, List.filterMap_cons]
  cases leadingPair? closing (p :: later) <;> rfl

theorem pairsBelow_eq_flatMap (closing : Kind → Option Kind) (offset : ℕ)
    (slots : List (Option Tree)) : pairsBelow closing offset slots =
      (sideBySide offset slots).flatMap fun p => p.2.pairsFrom closing p.1 := by
  induction slots generalizing offset with
  | nil => rfl
  | cons slot rest ih =>
    cases slot with
    | none => exact ih offset
    | some tree => rw [pairsBelow, sideBySide, List.flatMap_cons, ih]

/-- The sibling `p` opens the pair that the later sibling `q` closes. -/
structure Opens (closing : Kind → Option Kind) (p q : ℕ × Tree) (pair : BracePair) : Prop where
  opener : p.2.isPresentToken = true
  closer : q.2.isPresentToken = true
  kind : closing p.2.label.kind = some q.2.label.kind
  pair : pair = ⟨p.2.spanAt p.1, q.2.spanAt q.1⟩

theorem opens_of_leadingPair? {p : ℕ × Tree}
    (h : leadingPair? closing (p :: siblings) = some pair) :
    ∃ q ∈ siblings, Opens closing p q pair := by
  obtain ⟨offset, tree⟩ := p
  rw [leadingPair?, Option.ite_none_right_eq_some] at h
  obtain ⟨hopener, h⟩ := h
  obtain ⟨kind, hkind, hfirst⟩ := Option.bind_eq_some_iff.mp h
  obtain ⟨q, hq, hpair⟩ := Option.bind_eq_some_iff.mp hfirst
  have htest := List.find?_some hq
  rw [Bool.and_eq_true, beq_iff_eq] at htest
  obtain ⟨hcloser, rfl⟩ := htest
  exact ⟨q, List.mem_of_find?_eq_some hq, hopener, hcloser, hkind,
    (Option.some.inj hpair).symm⟩

theorem opens_of_mem_siblingPairs {R : ℕ × Tree → ℕ × Tree → Prop}
    (h : pair ∈ siblingPairs closing siblings) (hsiblings : siblings.Pairwise R) :
    ∃ p ∈ siblings, ∃ q ∈ siblings, R p q ∧ Opens closing p q pair := by
  obtain ⟨tail, htail, hpair⟩ := List.mem_filterMap.mp h
  have hsuffix := (List.mem_tails _ _).mp htail
  cases tail with
  | nil => cases hpair
  | cons p later =>
    obtain ⟨q, hq, hopens⟩ := opens_of_leadingPair? hpair
    obtain ⟨hlater, -⟩ := List.pairwise_cons.mp (hsiblings.sublist hsuffix.sublist)
    exact ⟨p, hsuffix.subset List.mem_cons_self, q, hsuffix.subset (List.mem_cons_of_mem _ hq),
      hlater q hq, hopens⟩

/-- Every pair of a tree joins two of its tokens, the one before the other. -/
theorem opens_of_mem_pairsFrom (h : pair ∈ tree.pairsFrom closing offset) :
    ∃ p q, Occurs offset tree p.1 p.2 ∧ Occurs offset tree q.1 q.2 ∧ p.1 + p.2.width ≤ q.1 ∧
      Opens closing p q pair := by
  induction tree generalizing offset with
  | node label slots ih =>
    rw [pairsFrom] at h
    split_ifs at h
    · cases h
    rcases List.mem_append.mp h with hsiblings | hbelow
    · obtain ⟨p, hp, q, hq, horder, hopens⟩ :=
        opens_of_mem_siblingPairs hsiblings (pairwise_sideBySide offset slots)
      exact ⟨p, q, .inside hp (.self _ _), .inside hq (.self _ _), horder, hopens⟩
    · rw [pairsBelow_eq_flatMap, List.mem_flatMap] at hbelow
      obtain ⟨⟨start, child⟩, hchild, hpair⟩ := hbelow
      obtain ⟨p, q, hp, hq, horder, hopens⟩ := ih child (mem_slots_of_sideBySide hchild) hpair
      exact ⟨p, q, .inside hchild hp, .inside hchild hq, horder, hopens⟩

end Tree
end GreenTree
