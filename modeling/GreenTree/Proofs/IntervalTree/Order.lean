import GreenTree.IntervalTree.Basic
import GreenTree.Proofs.Outcome
import GreenTree.Proofs.Span.Numbers

/-!
# Order in an interval tree

Rotations leave the values of a subtree in the order they are in, so an insertion changes that order
in one place only: the new value comes behind every value that starts no later, and before all
others. A subtree is ordered at every node exactly when its values are in order of their starts.
-/

namespace GreenTree
namespace IntervalTree

open Spanned Outcome

variable {α : Type} [Spanned α]

/-- No value starts before an earlier one. -/
def InOrder (values : List α) : Prop := values.Pairwise fun v w => startNat v ≤ startNat w

/-- The values `after` are the values `before` with `v` behind all that start no later. -/
def Placed (v : α) (before after : List α) : Prop :=
  ∃ early late, before = early ++ late ∧ after = early ++ v :: late ∧
    (∀ w ∈ early, startNat w ≤ startNat v) ∧ ∀ w ∈ late, startNat v < startNat w

namespace Placed

variable {v : α} {before after : List α}

theorem length_eq (h : Placed v before after) : after.length = before.length + 1 := by
  obtain ⟨early, late, rfl, rfl, -, -⟩ := h
  simp [Nat.add_assoc]

theorem inOrder (h : Placed v before after) (hb : InOrder before) : InOrder after := by
  obtain ⟨early, late, rfl, rfl, hearly, hlate⟩ := h
  obtain ⟨he, hl, hcross⟩ := List.pairwise_append.mp hb
  refine List.pairwise_append.mpr ⟨he, List.pairwise_cons.mpr ⟨?_, hl⟩, ?_⟩
  · intro w hw
    exact (hlate w hw).le
  · intro w hw u hu
    rcases List.mem_cons.mp hu with rfl | hu
    · exact hearly w hw
    · exact hcross w hw u hu

/-- What stands before all the values, and starts no later, stays there. -/
theorem append_left (h : Placed v before after) (others : List α)
    (ho : ∀ w ∈ others, startNat w ≤ startNat v) :
    Placed v (others ++ before) (others ++ after) := by
  obtain ⟨early, late, rfl, rfl, hearly, hlate⟩ := h
  refine ⟨others ++ early, late, by simp, by simp, ?_, hlate⟩
  intro w hw
  rcases List.mem_append.mp hw with hw | hw
  · exact ho w hw
  · exact hearly w hw

theorem append_right (h : Placed v before after) (others : List α)
    (ho : ∀ w ∈ others, startNat v < startNat w) :
    Placed v (before ++ others) (after ++ others) := by
  obtain ⟨early, late, rfl, rfl, hearly, hlate⟩ := h
  refine ⟨early, late ++ others, by simp, by simp, hearly, ?_⟩
  intro w hw
  rcases List.mem_append.mp hw with hw | hw
  · exact hlate w hw
  · exact ho w hw

end Placed

namespace Subtree

/-- At every node, what is left of the value starts no later than it, and what is right of it starts
no earlier. -/
def Ordered : Subtree α → Prop
  | empty => True
  | node l v r _ _ => l.Ordered ∧ r.Ordered ∧
      (∀ w ∈ l.toList, startNat w ≤ startNat v) ∧ ∀ w ∈ r.toList, startNat v ≤ startNat w

theorem inOrder_node_iff {l r : Subtree α} {v : α} :
    InOrder (l.toList ++ v :: r.toList) ↔
      InOrder l.toList ∧ InOrder r.toList ∧
        (∀ w ∈ l.toList, startNat w ≤ startNat v) ∧ ∀ w ∈ r.toList, startNat v ≤ startNat w := by
  simp only [InOrder, List.pairwise_append, List.pairwise_cons]
  constructor
  · rintro ⟨hl, ⟨hv, hr⟩, hcross⟩
    exact ⟨hl, hr, fun w hw => hcross w hw v (by simp), hv⟩
  · rintro ⟨hl, hr, hlv, hvr⟩
    refine ⟨hl, ⟨hvr, hr⟩, ?_⟩
    intro w hw u hu
    rcases List.mem_cons.mp hu with rfl | hu
    · exact hlv w hw
    · exact (hlv w hw).trans (hvr u hu)

theorem ordered_iff_inOrder (t : Subtree α) : t.Ordered ↔ InOrder t.toList := by
  induction t with
  | empty => simp [Ordered, toList, InOrder]
  | node l v r h m ihl ihr => rw [Ordered, toList, inOrder_node_iff, ihl, ihr]

theorem toList_join {l r t : Subtree α} {v : α} (h : join l v r = .ok t) :
    t.toList = l.toList ++ v :: r.toList := by
  obtain ⟨stop, -, h⟩ := bind_eq_ok_iff.mp h
  cases h
  rfl

theorem toList_rotateLeft {t t' : Subtree α} (h : t.rotateLeft = .ok t') :
    t'.toList = t.toList := by
  unfold rotateLeft at h
  split at h
  · obtain ⟨lower, hlower, h⟩ := bind_eq_ok_iff.mp h
    simp [toList_join h, toList_join hlower, toList]
  · cases h
    rfl

theorem toList_rotateRight {t t' : Subtree α} (h : t.rotateRight = .ok t') :
    t'.toList = t.toList := by
  unfold rotateRight at h
  split at h
  · obtain ⟨lower, hlower, h⟩ := bind_eq_ok_iff.mp h
    simp [toList_join h, toList_join hlower, toList]
  · cases h
    rfl

theorem toList_rebalance {t t' : Subtree α} (h : t.rebalance = .ok t') :
    t'.toList = t.toList := by
  cases t with
  | empty =>
    cases h
    rfl
  | node l v r height m =>
    simp only [rebalance] at h
    split_ifs at h
    · obtain ⟨turned, hturned, h⟩ := bind_eq_ok_iff.mp h
      rw [toList_rotateLeft h]
      simp [toList, toList_rotateRight hturned]
    · exact toList_rotateLeft h
    · obtain ⟨turned, hturned, h⟩ := bind_eq_ok_iff.mp h
      rw [toList_rotateRight h]
      simp [toList, toList_rotateLeft hturned]
    · exact toList_rotateRight h
    · cases h
      rfl

theorem placed_of_insert {v : α} {t t' : Subtree α} (ht : t.Ordered)
    (h : t.insert v = .ok t') : Placed v t.toList t'.toList := by
  induction t generalizing t' with
  | empty =>
    rw [toList_join h]
    exact ⟨[], [], rfl, rfl, by simp, by simp⟩
  | node l u r height m ihl ihr =>
    obtain ⟨hl, hr, hlu, hur⟩ := ht
    unfold insert at h
    split_ifs at h with hlt
    · obtain ⟨l', hl', h⟩ := bind_eq_ok_iff.mp h
      obtain ⟨joined, hjoined, h⟩ := bind_eq_ok_iff.mp h
      rw [toList_rebalance h, toList_join hjoined]
      refine (ihl hl hl').append_right (u :: r.toList) ?_
      intro w hw
      have hvu := start_lt_iff.mp hlt
      rcases List.mem_cons.mp hw with rfl | hw
      · exact hvu
      · exact hvu.trans_le (hur w hw)
    · obtain ⟨r', hr', h⟩ := bind_eq_ok_iff.mp h
      obtain ⟨joined, hjoined, h⟩ := bind_eq_ok_iff.mp h
      rw [toList_rebalance h, toList_join hjoined]
      have huv : startNat u ≤ startNat v := by
        rw [start_lt_iff] at hlt
        exact Nat.le_of_not_lt hlt
      have hplaced := (ihr hr hr').append_left (l.toList ++ [u]) (by
        intro w hw
        rcases List.mem_append.mp hw with hw | hw
        · exact (hlu w hw).trans huv
        · exact List.mem_singleton.mp hw ▸ huv)
      simpa [toList] using hplaced

theorem ordered_of_insert {v : α} {t t' : Subtree α} (ht : t.Ordered)
    (h : t.insert v = .ok t') : t'.Ordered := by
  rw [ordered_iff_inOrder]
  exact (placed_of_insert ht h).inOrder ((ordered_iff_inOrder t).mp ht)

end Subtree
end IntervalTree
end GreenTree
