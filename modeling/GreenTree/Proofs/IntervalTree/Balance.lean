import GreenTree.Proofs.IntervalTree.Order
import Mathlib.Order.Bounds.Basic

/-!
# Heights and largest ends

The two stored fields of a node are functions of what lies below it. An insertion rebuilds the nodes
on its way with both fields computed anew, and at each of them the heights of the children differ by
two at most, so a single or a double rotation restores the balance. No end is computed but those of
values already in the tree and of the new value, so nothing stops an insertion whose own end fits.
-/

namespace GreenTree
namespace IntervalTree

open Spanned Outcome

variable {α : Type} [Spanned α]

namespace Subtree

/-- The stored height of every node is one more than the larger height of its children, and these
heights differ by one at most. -/
def Balanced : Subtree α → Prop
  | empty => True
  | node l _ r h _ => l.Balanced ∧ r.Balanced ∧ h = 1 + max l.height r.height ∧
      l.height ≤ r.height + 1 ∧ r.height ≤ l.height + 1

/-- The ends of the values in a subtree. -/
def ends (t : Subtree α) : Set ℕ := {e | ∃ w ∈ t.toList, endNat w = e}

/-- The stored end of every node is the largest end of a value in its subtree. -/
def EndsStored : Subtree α → Prop
  | empty => True
  | node l v r h m => l.EndsStored ∧ r.EndsStored ∧ IsGreatest (node l v r h m).ends m.toNat

/-- A node on top of two subtrees whose stored fields are what they should be. -/
def fresh (l : Subtree α) (v : α) (r : Subtree α) : Subtree α :=
  node l v r (1 + max l.height r.height) (r.widen (l.widen (span v).endWord))

/-- Both stored fields are right at every node. -/
structure Kept (t : Subtree α) : Prop where
  balanced : t.Balanced
  endsStored : t.EndsStored

omit [Spanned α] in
@[simp] theorem height_empty : (empty : Subtree α).height = 0 := rfl

omit [Spanned α] in
@[simp] theorem height_node (l r : Subtree α) (v : α) (h : ℕ) (m : UInt32) :
    (node l v r h m).height = h := rfl

omit [Spanned α] in
theorem balanceFactor_node (l r : Subtree α) (v : α) (h : ℕ) (m : UInt32) :
    (node l v r h m).balanceFactor = (l.height : ℤ) - (r.height : ℤ) := rfl

@[simp] theorem height_fresh (l r : Subtree α) (v : α) :
    (fresh l v r).height = 1 + max l.height r.height := rfl

theorem join_of_fits (l r : Subtree α) {v : α} (hv : Fits v) :
    join l v r = .ok (fresh l v r) := by
  simp [join, Span.stop_of_fits hv, fresh]

theorem ends_empty : (empty : Subtree α).ends = ∅ := by
  simp [ends, toList]

theorem ends_node (l r : Subtree α) (v : α) (h : ℕ) (m : UInt32) :
    (node l v r h m).ends = {endNat v} ∪ l.ends ∪ r.ends := by
  ext e
  simp only [ends, toList, List.mem_append, List.mem_cons, Set.mem_ofPred_eq, Set.mem_union,
    Set.mem_singleton_iff]
  constructor
  · rintro ⟨w, hw | rfl | hw, rfl⟩
    · exact .inl (.inr ⟨w, hw, rfl⟩)
    · exact .inl (.inl rfl)
    · exact .inr ⟨w, hw, rfl⟩
  · rintro ((rfl | ⟨w, hw, rfl⟩) | ⟨w, hw, rfl⟩)
    · exact ⟨v, .inr (.inl rfl), rfl⟩
    · exact ⟨w, .inl hw, rfl⟩
    · exact ⟨w, .inr (.inr hw), rfl⟩

theorem EndsStored.le_maxEnd {l r : Subtree α} {v w : α} {h : ℕ} {m : UInt32}
    (ht : (node l v r h m).EndsStored) (hw : w ∈ (node l v r h m).toList) :
    endNat w ≤ m.toNat :=
  ht.2.2.2 ⟨w, hw, rfl⟩

/-- The stored ends are offsets, so every value of the subtree has one. -/
theorem EndsStored.fits {t : Subtree α} {w : α} (ht : t.EndsStored) (hw : w ∈ t.toList) :
    Fits w := by
  cases t with
  | empty => simp [toList] at hw
  | node l v r h m => exact (ht.le_maxEnd hw).trans_lt m.toNat_lt

theorem isGreatest_widen {s : Set ℕ} {e : UInt32} {t : Subtree α} (hs : IsGreatest s e.toNat)
    (ht : t.EndsStored) : IsGreatest (s ∪ t.ends) (t.widen e).toNat := by
  cases t with
  | empty => simpa [ends_empty, widen] using hs
  | node l v r h m =>
    rw [widen, Span.toNat_max]
    exact hs.union ht.2.2

theorem endsStored_fresh {l r : Subtree α} {v : α} (hl : l.EndsStored) (hr : r.EndsStored)
    (hv : Fits v) : (fresh l v r).EndsStored := by
  have hself : IsGreatest {endNat v} (span v).endWord.toNat := by
    rw [Span.toNat_endWord hv]
    exact isGreatest_singleton
  refine ⟨hl, hr, ?_⟩
  rw [ends_node]
  exact isGreatest_widen (isGreatest_widen hself hl) hr

theorem kept_fresh {l r : Subtree α} {v : α} (hl : l.Kept) (hr : r.Kept) (hv : Fits v)
    (hlr : l.height ≤ r.height + 1) (hrl : r.height ≤ l.height + 1) : (fresh l v r).Kept :=
  ⟨⟨hl.balanced, hr.balanced, rfl, hlr, hrl⟩, endsStored_fresh hl.endsStored hr.endsStored hv⟩

theorem Kept.left {l r : Subtree α} {v : α} {h : ℕ} {m : UInt32}
    (ht : (node l v r h m).Kept) : l.Kept :=
  ⟨ht.balanced.1, ht.endsStored.1⟩

theorem Kept.right {l r : Subtree α} {v : α} {h : ℕ} {m : UInt32}
    (ht : (node l v r h m).Kept) : r.Kept :=
  ⟨ht.balanced.2.1, ht.endsStored.2.1⟩

theorem Kept.fits_root {l r : Subtree α} {v : α} {h : ℕ} {m : UInt32}
    (ht : (node l v r h m).Kept) : Fits v :=
  ht.endsStored.fits (by simp [toList])

theorem Kept.height_eq {l r : Subtree α} {v : α} {h : ℕ} {m : UInt32}
    (ht : (node l v r h m).Kept) : h = 1 + max l.height r.height :=
  ht.balanced.2.2.1

theorem rotateLeft_of_fits {a b c : Subtree α} {v w : α} {h h' : ℕ} {m m' : UInt32}
    (hv : Fits v) (hw : Fits w) :
    (node a v (node b w c h' m') h m).rotateLeft = .ok (fresh (fresh a v b) w c) := by
  simp [rotateLeft, join_of_fits _ _ hv, join_of_fits _ _ hw]

theorem rotateRight_of_fits {a b c : Subtree α} {v w : α} {h h' : ℕ} {m m' : UInt32}
    (hv : Fits v) (hw : Fits w) :
    (node (node a v b h' m') w c h m).rotateRight = .ok (fresh a v (fresh b w c)) := by
  simp [rotateRight, join_of_fits _ _ hv, join_of_fits _ _ hw]

theorem rebalance_single_left {l b c : Subtree α} {v w : α} {k : ℕ} {m : UInt32}
    (hv : Fits v) (hw : Fits w) (heavy : k = l.height + 2) (hinner : b.height ≠ c.height + 1) :
    (fresh l v (node b w c k m)).rebalance = .ok (fresh (fresh l v b) w c) := by
  have houter : (l.height : ℤ) - k = -2 := by omega
  have hnot : ¬ (b.height : ℤ) - c.height = 1 := by omega
  rw [fresh]
  simp only [rebalance, balanceFactor_node, height_node, houter, hnot, ↓reduceIte]
  exact rotateLeft_of_fits hv hw

theorem rebalance_double_left {l a b c : Subtree α} {v x w : α} {k k' : ℕ} {m m' : UInt32}
    (hv : Fits v) (hx : Fits x) (hw : Fits w) (heavy : k = l.height + 2)
    (hinner : k' = c.height + 1) :
    (fresh l v (node (node a x b k' m') w c k m)).rebalance =
      .ok (fresh (fresh l v a) x (fresh b w c)) := by
  have houter : (l.height : ℤ) - k = -2 := by omega
  have hturn : (k' : ℤ) - c.height = 1 := by omega
  rw [fresh]
  simp only [rebalance, balanceFactor_node, height_node, houter, hturn, ↓reduceIte,
    rotateRight_of_fits hx hw, ok_bind]
  exact rotateLeft_of_fits hv hx

theorem rebalance_single_right {a b r : Subtree α} {v w : α} {k : ℕ} {m : UInt32}
    (hv : Fits v) (hw : Fits w) (heavy : k = r.height + 2) (hinner : b.height ≠ a.height + 1) :
    (fresh (node a w b k m) v r).rebalance = .ok (fresh a w (fresh b v r)) := by
  have houter : (k : ℤ) - r.height = 2 := by omega
  have hnot : ¬ (a.height : ℤ) - b.height = -1 := by omega
  rw [fresh]
  simp only [rebalance, balanceFactor_node, height_node, houter, hnot, reduceCtorEq, ↓reduceIte]
  exact rotateRight_of_fits hw hv

theorem rebalance_double_right {a b c r : Subtree α} {v x w : α} {k k' : ℕ} {m m' : UInt32}
    (hv : Fits v) (hx : Fits x) (hw : Fits w) (heavy : k = r.height + 2)
    (hinner : k' = a.height + 1) :
    (fresh (node a w (node b x c k' m') k m) v r).rebalance =
      .ok (fresh (fresh a w b) x (fresh c v r)) := by
  have houter : (k : ℤ) - r.height = 2 := by omega
  have hturn : (a.height : ℤ) - k' = -1 := by omega
  rw [fresh]
  simp only [rebalance, balanceFactor_node, height_node, houter, hturn, reduceCtorEq, ↓reduceIte,
    rotateLeft_of_fits hw hx, ok_bind]
  exact rotateRight_of_fits hx hv

theorem rebalance_of_balanced {l r : Subtree α} {v : α} (hlr : l.height ≤ r.height + 1)
    (hrl : r.height ≤ l.height + 1) : (fresh l v r).rebalance = .ok (fresh l v r) := by
  have hright : ¬ (l.height : ℤ) - r.height = -2 := by omega
  have hleft : ¬ (l.height : ℤ) - r.height = 2 := by omega
  rw [fresh]
  simp only [rebalance, balanceFactor_node, hright, hleft, ↓reduceIte, pure_eq_ok]

theorem rebalance_right_heavy {l r : Subtree α} {v : α} (hl : l.Kept) (hr : r.Kept)
    (hv : Fits v) (heavy : r.height = l.height + 2) :
    ∃ t, (fresh l v r).rebalance = .ok t ∧ t.Kept ∧ r.height ≤ t.height ∧
      t.height ≤ r.height + 1 := by
  cases r with
  | empty => simp at heavy
  | node b w c k m =>
    have hk := hr.height_eq
    obtain ⟨-, -, -, hbc, hcb⟩ := hr.balanced
    rw [height_node] at heavy ⊢
    by_cases hinner : b.height = c.height + 1
    · cases b with
      | empty => simp at hinner
      | node b₁ x b₂ k' m' =>
        have hb := hr.left
        have hk' := hb.height_eq
        obtain ⟨-, -, -, hb₁₂, hb₂₁⟩ := hb.balanced
        simp only [height_node] at hinner hk hbc hcb
        have hlower : (fresh l v b₁).Kept := kept_fresh hl hb.left hv (by omega) (by omega)
        have hlower' : (fresh b₂ w c).Kept :=
          kept_fresh hb.right hr.right hr.fits_root (by omega) (by omega)
        refine ⟨_, rebalance_double_left hv hb.fits_root hr.fits_root heavy hinner,
          kept_fresh hlower hlower' hb.fits_root ?_ ?_, ?_, ?_⟩
        all_goals simp only [height_fresh]
        all_goals omega
    · have hlower : (fresh l v b).Kept := kept_fresh hl hr.left hv (by omega) (by omega)
      refine ⟨_, rebalance_single_left hv hr.fits_root heavy hinner,
        kept_fresh hlower hr.right hr.fits_root ?_ ?_, ?_, ?_⟩
      all_goals simp only [height_fresh]
      all_goals omega

theorem rebalance_left_heavy {l r : Subtree α} {v : α} (hl : l.Kept) (hr : r.Kept)
    (hv : Fits v) (heavy : l.height = r.height + 2) :
    ∃ t, (fresh l v r).rebalance = .ok t ∧ t.Kept ∧ l.height ≤ t.height ∧
      t.height ≤ l.height + 1 := by
  cases l with
  | empty => simp at heavy
  | node a w b k m =>
    have hk := hl.height_eq
    obtain ⟨-, -, -, hab, hba⟩ := hl.balanced
    rw [height_node] at heavy ⊢
    by_cases hinner : b.height = a.height + 1
    · cases b with
      | empty => simp at hinner
      | node b₁ x b₂ k' m' =>
        have hb := hl.right
        have hk' := hb.height_eq
        obtain ⟨-, -, -, hb₁₂, hb₂₁⟩ := hb.balanced
        simp only [height_node] at hinner hk hab hba
        have hlower : (fresh a w b₁).Kept :=
          kept_fresh hl.left hb.left hl.fits_root (by omega) (by omega)
        have hlower' : (fresh b₂ v r).Kept := kept_fresh hb.right hr hv (by omega) (by omega)
        refine ⟨_, rebalance_double_right hv hb.fits_root hl.fits_root heavy hinner,
          kept_fresh hlower hlower' hb.fits_root ?_ ?_, ?_, ?_⟩
        all_goals simp only [height_fresh]
        all_goals omega
    · have hlower : (fresh b v r).Kept := kept_fresh hl.right hr hv (by omega) (by omega)
      refine ⟨_, rebalance_single_right hv hl.fits_root heavy hinner,
        kept_fresh hl.left hlower hl.fits_root ?_ ?_, ?_, ?_⟩
      all_goals simp only [height_fresh]
      all_goals omega

/-- Where the heights of the children differ by two at most, rebalancing succeeds. A node that was
balanced stays as it is; any other becomes at most one higher than its higher child. -/
theorem rebalance_fresh {l r : Subtree α} {v : α} (hl : l.Kept) (hr : r.Kept) (hv : Fits v)
    (hlr : l.height ≤ r.height + 2) (hrl : r.height ≤ l.height + 2) :
    ∃ t, (fresh l v r).rebalance = .ok t ∧ t.Kept ∧ max l.height r.height ≤ t.height ∧
      t.height ≤ 1 + max l.height r.height ∧
      (l.height ≤ r.height + 1 → r.height ≤ l.height + 1 →
        t.height = 1 + max l.height r.height) := by
  by_cases hright : l.height + 1 < r.height
  · have heavy : r.height = l.height + 2 := by omega
    obtain ⟨t, ht, hkept, hlow, hhigh⟩ := rebalance_right_heavy hl hr hv heavy
    exact ⟨t, ht, hkept, by omega, by omega, by omega⟩
  · by_cases hleft : r.height + 1 < l.height
    · have heavy : l.height = r.height + 2 := by omega
      obtain ⟨t, ht, hkept, hlow, hhigh⟩ := rebalance_left_heavy hl hr hv heavy
      exact ⟨t, ht, hkept, by omega, by omega, by omega⟩
    · have hlr' : l.height ≤ r.height + 1 := by omega
      have hrl' : r.height ≤ l.height + 1 := by omega
      refine ⟨_, rebalance_of_balanced hlr' hrl', kept_fresh hl hr hv hlr' hrl',
        Nat.le_add_left _ _, le_rfl, ?_⟩
      intro _ _
      rfl

/-- An insertion whose own end fits succeeds, and the height stays or grows by one. -/
theorem insert_of_fits {v : α} {t : Subtree α} (ht : t.Kept) (hv : Fits v) :
    ∃ t', t.insert v = .ok t' ∧ t'.Kept ∧ (t'.height = t.height ∨ t'.height = t.height + 1) := by
  induction t with
  | empty => exact ⟨_, join_of_fits _ _ hv, kept_fresh ht ht hv (by simp) (by simp), .inr rfl⟩
  | node l u r h m ihl ihr =>
    have hh := ht.height_eq
    have hu := ht.fits_root
    obtain ⟨-, -, -, hlr, hrl⟩ := ht.balanced
    simp only [insert, height_node]
    split_ifs with hlt
    · obtain ⟨l', hl', hkept, hheight⟩ := ihl ht.left
      obtain ⟨t', ht', hkept', hlow, hhigh, heven⟩ :=
        rebalance_fresh hkept ht.right hu (by omega) (by omega)
      refine ⟨t', ?_, hkept', by omega⟩
      rw [hl', ok_bind, join_of_fits _ _ hu, ok_bind, ht']
    · obtain ⟨r', hr', hkept, hheight⟩ := ihr ht.right
      obtain ⟨t', ht', hkept', hlow, hhigh, heven⟩ :=
        rebalance_fresh ht.left hkept hu (by omega) (by omega)
      refine ⟨t', ?_, hkept', by omega⟩
      rw [hr', ok_bind, join_of_fits _ _ hu, ok_bind, ht']

end Subtree
end IntervalTree
end GreenTree
