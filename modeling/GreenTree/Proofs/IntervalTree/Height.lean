import GreenTree.Limits
import GreenTree.Proofs.IntervalTree.Iteration
import Mathlib.Data.Nat.Fib.Basic

/-!
# Heights of balanced trees

The heights of the children of a balanced node differ by one at most, so the least number of values
in a tree of some height grows like the Fibonacci numbers. A tree of as many values as there are
offsets is therefore low enough for the frames that are set aside for a walk over it.
-/

namespace GreenTree
namespace IntervalTree

open Spanned Outcome

variable {α : Type}

namespace Subtree

/-- Number of nodes on a longest path down from the root. -/
def levels : Subtree α → ℕ
  | empty => 0
  | node l _ r _ _ => 1 + max l.levels r.levels

theorem Balanced.height_eq_levels {t : Subtree α} (ht : t.Balanced) : t.height = t.levels := by
  induction t with
  | empty => rfl
  | node l v r h m ihl ihr =>
    obtain ⟨hl, hr, rfl, -⟩ := ht
    rw [height_node, levels, ihl hl, ihr hr]

/-- The higher child is one level lower than the node, and the other at most two. -/
theorem fib_one_add_max_le {a b : ℕ} (hab : a ≤ b + 1) (hba : b ≤ a + 1) :
    Nat.fib (1 + max a b + 2) ≤ Nat.fib (a + 2) + Nat.fib (b + 2) := by
  have hstep : Nat.fib (1 + max a b + 2) = Nat.fib (max a b + 1) + Nat.fib (max a b + 2) := by
    rw [Nat.add_comm 1, Nat.fib_add_two]
  rw [hstep]
  rcases Nat.le_total a b with h | h
  · rw [Nat.max_eq_right h]
    exact Nat.add_le_add (Nat.fib_mono (Nat.succ_le_succ hba)) le_rfl
  · rw [Nat.max_eq_left h, Nat.add_comm (Nat.fib (a + 2))]
    exact Nat.add_le_add (Nat.fib_mono (Nat.succ_le_succ hab)) le_rfl

theorem Balanced.fib_height_le {t : Subtree α} (ht : t.Balanced) :
    Nat.fib (t.height + 2) ≤ t.count + 1 := by
  induction t with
  | empty => exact le_rfl
  | node l v r h m ihl ihr =>
    obtain ⟨hl, hr, rfl, hlr, hrl⟩ := ht
    calc Nat.fib (1 + max l.height r.height + 2)
        ≤ Nat.fib (l.height + 2) + Nat.fib (r.height + 2) := fib_one_add_max_le hlr hrl
      _ ≤ (l.count + 1) + (r.count + 1) := Nat.add_le_add (ihl hl) (ihr hr)
      _ = (node l v r (1 + max l.height r.height) m).count + 1 := by rw [count]; omega

end Subtree

variable [Spanned α] {t : IntervalTree α}

theorem Sound.height_eq_levels (ht : t.Sound) : t.height = t.root.levels :=
  ht.balanced.height_eq_levels

/-- With fewer values than every tree one level higher has, a tree is no higher. -/
theorem Sound.height_le_of_size_lt (ht : t.Sound) {h : ℕ} (hsize : t.size + 1 < Nat.fib (h + 3)) :
    t.height ≤ h := by
  by_contra hhigh
  have hfib : Nat.fib (h + 3) ≤ Nat.fib (t.height + 2) := Nat.fib_mono (by omega)
  have hcount := ht.balanced.fib_height_le
  rw [← ht.size_eq] at hcount
  exact absurd (hfib.trans hcount) (Nat.not_le_of_lt hsize)

theorem Sound.height_le (ht : t.Sound) (hsize : t.size ≤ 2 ^ 32) : t.height ≤ 47 := by
  have hfib : Nat.fib (47 + 3) = 12586269025 := by decide +kernel
  exact ht.height_le_of_size_lt (by omega)

theorem Sound.frames_suffice (ht : t.Sound) (hsize : t.size ≤ 2 ^ 32) :
    2 * t.height + 1 ≤ Limits.walkFrames := by
  have hheight := ht.height_le hsize
  unfold Limits.walkFrames
  omega

/-- Insertions make a sound tree of as many values as were inserted. -/
theorem exists_sound_of_size (values : List α) (fits : ∀ v ∈ values, Fits v) :
    ∃ t, ofList values = .ok t ∧ t.Sound ∧ t.size = values.length ∧
      t.toList.length = values.length := by
  obtain ⟨t, ht, hsound, hsorted⟩ := stablySorted_ofList values fits
  have hlength : t.toList.length = values.length := by
    rw [toList_eq, hsorted.perm.length_eq]
  refine ⟨t, ht, hsound, ?_, hlength⟩
  rw [hsound.size_eq, ← Subtree.length_toList, ← toList_eq, hlength]

/-- A tree made by insertions, in whatever order and with whatever ties, has at least as many values
as the Fibonacci number two places beyond its height, less one. With no more values than there are
offsets it has at most 47 levels, so the frames set aside for a walk are enough for two on each
level and one more. -/
theorem height_bounded_by_fibonacci (values : List α) (fits : ∀ v ∈ values, Fits v) :
    ∃ t, ofList values = .ok t ∧ t.size = values.length ∧ t.toList.length = values.length ∧
      t.height = t.root.levels ∧
      Nat.fib (t.height + 2) - 1 ≤ values.length ∧
      (values.length ≤ 2 ^ 32 → t.height ≤ 47 ∧ 2 * t.height + 1 ≤ Limits.walkFrames) := by
  obtain ⟨t, ht, hsound, hsize, hlength⟩ := exists_sound_of_size values fits
  refine ⟨t, ht, hsize, hlength, hsound.height_eq_levels, ?_, ?_⟩
  · have hfib := hsound.balanced.fib_height_le
    rw [← hsound.size_eq, hsize] at hfib
    exact Nat.sub_le_of_le_add hfib
  · intro hfew
    rw [← hsize] at hfew
    exact ⟨hsound.height_le hfew, hsound.frames_suffice hfew⟩

/-- No tree of four levels has fewer values than this one, where two pairs start together. -/
theorem height_bounded_by_fibonacci_sparsest :
    let values := [Span.mk 50 1, Span.mk 30 1, Span.mk 70 1, Span.mk 20 1, Span.mk 30 4,
      Span.mk 80 4294967215, Span.mk 20 0]
    (∀ v ∈ values, Fits v) ∧ values.length ≤ 2 ^ 32 ∧ ∃ t, ofList values = .ok t ∧
      t.height = 4 ∧ t.root.levels = 4 ∧ Nat.fib (t.height + 2) - 1 = values.length ∧
      Nat.fib (t.height + 2) - 1 ≤ values.length ∧ t.height ≤ 47 ∧
      2 * t.height + 1 ≤ Limits.walkFrames := by
  intro values
  have fits : ∀ v ∈ values, Fits v := by decide
  have hfew : values.length ≤ 2 ^ 32 := by decide
  have hfour : passes (ofList values) (fun t => t.height == 4) = true := by decide +kernel
  obtain ⟨t, ht, -, -, hlevels, hfull, hlow⟩ := height_bounded_by_fibonacci values fits
  rw [ht] at hfour
  have hheight : t.height = 4 := beq_iff_eq.mp hfour
  refine ⟨fits, hfew, t, ht, hheight, hlevels.symm.trans hheight, ?_, hfull, hlow hfew⟩
  rw [hheight]
  rfl

end IntervalTree
end GreenTree
