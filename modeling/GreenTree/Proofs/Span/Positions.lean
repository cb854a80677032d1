import GreenTree.Proofs.Span.Numbers
import Mathlib.Data.Set.Basic

/-!
# Spans as sets of positions

A span holds the positions from its start up to its end, and touches its end as well. A position
test takes one difference, which wraps around; a test of two spans compares their ends; what two
spans share is built from a start and an end. Between spans whose ends are offsets all of these tell
of the same two sets of positions.
-/

namespace GreenTree
namespace Span

open Outcome

/-- The positions that the span holds. -/
def held (s : Span) : Set UInt32 := {p | s.holdsPosition p = true}

/-- The positions that the span holds, and its end. -/
def touched (s : Span) : Set UInt32 := {p | s.touchesPosition p = true}

/-- The span from the later start to the earlier end, where these come in that order. -/
def common (s t : Span) : Span :=
  ⟨max s.start t.start, min s.endWord t.endWord - max s.start t.start⟩

variable {s t : Span} {p : UInt32}

/-- For a position before the start the difference wraps around, past all lengths that fit. -/
theorem toNat_sub_lt_iff {start : UInt32} {n : ℕ} (h : start.toNat + n ≤ UInt32.size) :
    (p - start).toNat < n ↔ start.toNat ≤ p.toNat ∧ p.toNat < start.toNat + n := by
  have hstart := start.toNat_lt
  have hp := p.toNat_lt
  rw [UInt32.size] at h
  rw [UInt32.toNat_sub]
  omega

theorem holdsPosition_iff (hs : s.Fits) :
    s.holdsPosition p = true ↔ s.start.toNat ≤ p.toNat ∧ p.toNat < s.endNat := by
  simp only [holdsPosition, decide_eq_true_eq, UInt32.lt_iff_toNat_lt]
  exact toNat_sub_lt_iff (Nat.le_of_lt hs)

theorem touchesPosition_iff (hs : s.Fits) :
    s.touchesPosition p = true ↔ s.start.toNat ≤ p.toNat ∧ p.toNat ≤ s.endNat := by
  have hend : s.start.toNat + (s.length.toNat + 1) ≤ UInt32.size := hs
  have hlt := toNat_sub_lt_iff (p := p) hend
  simp only [touchesPosition, decide_eq_true_eq, UInt32.le_iff_toNat_le]
  unfold endNat
  omega

theorem held_eq (hs : s.Fits) : s.held = {p | s.start ≤ p ∧ p < s.endWord} := by
  ext p
  simp only [held, Set.mem_ofPred_eq, holdsPosition_iff hs, UInt32.le_iff_toNat_le,
    UInt32.lt_iff_toNat_lt, toNat_endWord hs]

theorem touched_eq (hs : s.Fits) : s.touched = {p | s.start ≤ p ∧ p ≤ s.endWord} := by
  ext p
  simp only [touched, Set.mem_ofPred_eq, touchesPosition_iff hs, UInt32.le_iff_toNat_le,
    toNat_endWord hs]

theorem touches_emptyAt (hs : s.Fits) (p : UInt32) :
    s.touches (emptyAt p) = .ok (s.touchesPosition p) := by
  have hp : (emptyAt p).Fits := p.toNat_lt
  have hiff : s.touchesPosition p = true ↔
      (emptyAt p).start.toNat ≤ s.endNat ∧ s.start.toNat ≤ (emptyAt p).endNat := by
    rw [touchesPosition_iff hs, and_comm]
    rfl
  rw [touches_of_fits hs hp, Bool.eq_iff_iff.mpr (hiff.trans decide_eq_true_iff.symm)]

section Shared

variable (hs : s.Fits) (ht : t.Fits)

include hs ht

theorem commonBounds_of_fits :
    s.commonBounds t = .ok (max s.start t.start, min s.endWord t.endWord) := by
  simp [commonBounds, stop_of_fits hs, stop_of_fits ht]

theorem commonBounds_comm : t.commonBounds s = s.commonBounds t := by
  have hmax : max t.start s.start = max s.start t.start := by
    rw [← UInt32.toNat_inj, toNat_max, toNat_max, Nat.max_comm]
  have hmin : min t.endWord s.endWord = min s.endWord t.endWord := by
    rw [← UInt32.toNat_inj, toNat_min, toNat_min, Nat.min_comm]
  rw [commonBounds_of_fits ht hs, commonBounds_of_fits hs ht, hmax, hmin]

theorem max_le_min_iff : max s.start t.start ≤ min s.endWord t.endWord ↔
    max s.start.toNat t.start.toNat ≤ min s.endNat t.endNat := by
  rw [UInt32.le_iff_toNat_le, toNat_max, toNat_min, toNat_endWord hs, toNat_endWord ht]

theorem max_lt_min_iff : max s.start t.start < min s.endWord t.endWord ↔
    max s.start.toNat t.start.toNat < min s.endNat t.endNat := by
  rw [UInt32.lt_iff_toNat_lt, toNat_max, toNat_min, toNat_endWord hs, toNat_endWord ht]

theorem between_common (h : max s.start.toNat t.start.toNat ≤ min s.endNat t.endNat) :
    between (max s.start t.start) (min s.endWord t.endWord) = .ok (s.common t) :=
  if_pos ((max_le_min_iff hs ht).mpr h)

theorem overlap_of_fits :
    s.overlap t = .ok (if max s.start.toNat t.start.toNat < min s.endNat t.endNat
      then some (s.common t) else none) := by
  simp only [overlap, commonBounds_of_fits hs ht, ok_bind, max_lt_min_iff hs ht]
  split_ifs with h
  · rw [between_common hs ht h.le, ok_bind, pure_eq_ok]
  · rfl

theorem intersection_of_fits :
    s.intersection t = .ok (if max s.start.toNat t.start.toNat ≤ min s.endNat t.endNat
      then some (s.common t) else none) := by
  simp only [intersection, commonBounds_of_fits hs ht, ok_bind, max_le_min_iff hs ht]
  split_ifs with h
  · rw [between_common hs ht h, ok_bind, pure_eq_ok]
  · rfl

theorem endNat_common (h : max s.start.toNat t.start.toNat ≤ min s.endNat t.endNat) :
    (s.common t).endNat = min s.endNat t.endNat := by
  have hlength := UInt32.toNat_sub_of_le _ _ ((max_le_min_iff hs ht).mpr h)
  rw [toNat_max, toNat_min, toNat_endWord hs, toNat_endWord ht] at hlength
  rw [endNat, common, hlength, toNat_max]
  exact Nat.add_sub_cancel' h

theorem fits_common (h : max s.start.toNat t.start.toNat ≤ min s.endNat t.endNat) :
    (s.common t).Fits := by
  unfold Fits
  rw [endNat_common hs ht h]
  exact (Nat.min_le_left _ _).trans_lt hs

theorem held_common (h : max s.start.toNat t.start.toNat ≤ min s.endNat t.endNat) :
    (s.common t).held = s.held ∩ t.held := by
  have hstart : (s.common t).start.toNat = max s.start.toNat t.start.toNat := toNat_max _ _
  ext p
  simp only [held, Set.mem_inter_iff, Set.mem_ofPred_eq, holdsPosition_iff hs,
    holdsPosition_iff ht, holdsPosition_iff (fits_common hs ht h), hstart, endNat_common hs ht h]
  omega

theorem touched_common (h : max s.start.toNat t.start.toNat ≤ min s.endNat t.endNat) :
    (s.common t).touched = s.touched ∩ t.touched := by
  have hstart : (s.common t).start.toNat = max s.start.toNat t.start.toNat := toNat_max _ _
  ext p
  simp only [touched, Set.mem_inter_iff, Set.mem_ofPred_eq, touchesPosition_iff hs,
    touchesPosition_iff ht, touchesPosition_iff (fits_common hs ht h), hstart,
    endNat_common hs ht h]
  omega

/-- Spans that hold a position together hold the later one of their starts. -/
theorem nonempty_inter_held_iff : (s.held ∩ t.held).Nonempty ↔
    max s.start.toNat t.start.toNat < min s.endNat t.endNat := by
  constructor
  · rintro ⟨p, hsp, htp⟩
    have hsp' := (holdsPosition_iff hs).mp hsp
    have htp' := (holdsPosition_iff ht).mp htp
    omega
  · intro h
    refine ⟨max s.start t.start, (holdsPosition_iff hs).mpr ?_, (holdsPosition_iff ht).mpr ?_⟩
    all_goals rw [toNat_max]
    all_goals omega

/-- The positions of a span that is not empty reach from its start to just before its end. -/
theorem held_subset_held_iff (h : t.isEmpty = false) : t.held ⊆ s.held ↔
    s.start.toNat ≤ t.start.toNat ∧ t.endNat ≤ s.endNat := by
  have hlength : t.length.toNat ≠ 0 := by
    rw [isEmpty, beq_eq_false_iff_ne, Ne, ← UInt32.toNat_inj] at h
    exact h
  have hend : t.endNat = t.start.toNat + t.length.toNat := rfl
  constructor
  · intro hsub
    have hone : 1 ≤ t.endWord := by
      rw [UInt32.le_iff_toNat_le, toNat_endWord ht, UInt32.toNat_one]
      omega
    have hvalue : (t.endWord - 1).toNat = t.endNat - 1 := by
      rw [UInt32.toNat_sub_of_le _ _ hone, toNat_endWord ht, UInt32.toNat_one]
    have hfirst : t.start ∈ t.held := (holdsPosition_iff ht).mpr ⟨le_rfl, by omega⟩
    have hlast : t.endWord - 1 ∈ t.held := (holdsPosition_iff ht).mpr (by omega)
    have hfirst' := (holdsPosition_iff hs).mp (hsub hfirst)
    have hlast' := (holdsPosition_iff hs).mp (hsub hlast)
    omega
  · intro hinside p hp
    have hp' := (holdsPosition_iff ht).mp hp
    exact (holdsPosition_iff hs).mpr (by omega)

theorem overlap_comm : t.overlap s = s.overlap t := by
  unfold overlap
  rw [commonBounds_comm hs ht]

theorem intersection_comm : t.intersection s = s.intersection t := by
  unfold intersection
  rw [commonBounds_comm hs ht]

theorem overlaps_comm : t.overlaps s = s.overlaps t := by
  unfold overlaps
  rw [commonBounds_comm hs ht]

theorem touches_comm : t.touches s = s.touches t := by
  simp only [touches_of_fits ht hs, touches_of_fits hs ht, and_comm]

/-- Touching is comparing the later start with the earlier end, as no span is shorter than zero. -/
theorem touches_eq_decide_max_le_min : s.touches t =
    .ok (decide (max s.start.toNat t.start.toNat ≤ min s.endNat t.endNat)) := by
  have hs' : s.start.toNat ≤ s.endNat := Nat.le_add_right _ _
  have ht' : t.start.toNat ≤ t.endNat := Nat.le_add_right _ _
  rw [touches_of_fits hs ht, Except.ok.injEq, decide_eq_decide]
  omega

/-- What two spans share is there just if they overlap, and holds what both hold. -/
theorem exists_overlap : ∃ shared, s.overlap t = .ok shared ∧ s.overlaps t = .ok shared.isSome ∧
    (shared.isSome = true ↔ (s.held ∩ t.held).Nonempty) ∧
    ∀ u ∈ shared, u.Fits ∧ u.held = s.held ∩ t.held := by
  rw [nonempty_inter_held_iff hs ht, overlap_of_fits hs ht, overlaps_of_fits hs ht]
  by_cases h : max s.start.toNat t.start.toNat < min s.endNat t.endNat
  · refine ⟨some (s.common t), by rw [if_pos h], by rw [decide_eq_true h]; rfl, by simp [h], ?_⟩
    rintro u ⟨⟩
    exact ⟨fits_common hs ht h.le, held_common hs ht h.le⟩
  · exact ⟨none, by rw [if_neg h], by rw [decide_eq_false h]; rfl, by simp [h], by simp⟩

/-- What two spans share, possibly nothing but a place between positions, is there just if they
touch. -/
theorem exists_intersection : ∃ shared, s.intersection t = .ok shared ∧
    s.touches t = .ok shared.isSome ∧
    ∀ u ∈ shared, u.Fits ∧ u.touched = s.touched ∩ t.touched := by
  rw [intersection_of_fits hs ht, touches_eq_decide_max_le_min hs ht]
  by_cases h : max s.start.toNat t.start.toNat ≤ min s.endNat t.endNat
  · refine ⟨some (s.common t), by rw [if_pos h], by rw [decide_eq_true h]; rfl, ?_⟩
    rintro u ⟨⟩
    exact ⟨fits_common hs ht h, touched_common hs ht h⟩
  · exact ⟨none, by rw [if_neg h], by rw [decide_eq_false h]; rfl, by simp⟩

end Shared

/-- Between spans whose ends are offsets no operation is stopped. A span holds the positions from
its start up to its end, and touches its end as well, which the empty span at a position tells too.
Two spans overlap if they hold a position together, and then `overlap` is the span of all these;
they touch if there is an `intersection`, which touches what both touch. Which of the two is asked
makes no difference. A span covers another that is not empty if it holds all positions of it. -/
theorem operations_agree_with_positions (s t : Span) (hs : s.Fits) (ht : t.Fits) :
    s.stop = .ok s.endWord ∧
    s.held = {p | s.start ≤ p ∧ p < s.endWord} ∧
    s.touched = {p | s.start ≤ p ∧ p ≤ s.endWord} ∧
    (∀ p, s.touches (emptyAt p) = .ok (s.touchesPosition p)) ∧
    (∃ shared, s.overlap t = .ok shared ∧ t.overlap s = .ok shared ∧
      s.overlaps t = .ok shared.isSome ∧ t.overlaps s = .ok shared.isSome ∧
      (shared.isSome = true ↔ (s.held ∩ t.held).Nonempty) ∧
      ∀ u ∈ shared, u.Fits ∧ u.held = s.held ∩ t.held) ∧
    (∃ shared, s.intersection t = .ok shared ∧ t.intersection s = .ok shared ∧
      s.touches t = .ok shared.isSome ∧ t.touches s = .ok shared.isSome ∧
      ∀ u ∈ shared, u.Fits ∧ u.touched = s.touched ∩ t.touched) ∧
    ∃ inside, s.covers t = .ok inside ∧
      (t.isEmpty = false → (inside = true ↔ t.held ⊆ s.held)) := by
  refine ⟨stop_of_fits hs, held_eq hs, touched_eq hs, touches_emptyAt hs, ?_, ?_, ?_⟩
  · obtain ⟨shared, hshared, htest, hnonempty, hheld⟩ := exists_overlap hs ht
    exact ⟨shared, hshared, (overlap_comm hs ht).trans hshared, htest,
      (overlaps_comm hs ht).trans htest, hnonempty, hheld⟩
  · obtain ⟨shared, hshared, htest, htouched⟩ := exists_intersection hs ht
    exact ⟨shared, hshared, (intersection_comm hs ht).trans hshared, htest,
      (touches_comm hs ht).trans htest, htouched⟩
  · refine ⟨_, covers_of_fits hs ht, ?_⟩
    intro h
    rw [decide_eq_true_eq, held_subset_held_iff hs ht h]

/-- The first span ends where the second begins, which ends at the last offset. They share no
position, but touch at that place. -/
theorem operations_agree_with_positions_at_meeting_ends :
    let s := Span.mk 0 4294967290
    let t := Span.mk 4294967290 5
    s.Fits ∧ t.Fits ∧ t.held = {p | 4294967290 ≤ p ∧ p < 4294967295} ∧
      s.overlaps t = .ok false ∧ ¬ (s.held ∩ t.held).Nonempty ∧
      s.intersection t = .ok (some ⟨4294967290, 0⟩) ∧
      (Span.mk 4294967290 0).touched = s.touched ∩ t.touched ∧
      s.covers t = .ok false ∧ ¬ t.held ⊆ s.held := by
  intro s t
  have hs : s.Fits := by decide
  have ht : t.Fits := by decide
  have hoverlap : s.overlap t = .ok none := by decide +kernel
  have hintersection : s.intersection t = .ok (some ⟨4294967290, 0⟩) := by decide +kernel
  have hcovers : s.covers t = .ok false := by decide +kernel
  obtain ⟨-, -, -, -, ⟨shared, hshared, -, hoverlaps, -, hnonempty, -⟩,
    ⟨shared', hshared', -, -, -, htouched⟩, inside, hinside, hsubset⟩ :=
    operations_agree_with_positions s t hs ht
  obtain ⟨-, hheld, -⟩ := operations_agree_with_positions t s ht hs
  obtain rfl : shared = none := Except.ok.inj (hshared.symm.trans hoverlap)
  obtain rfl : shared' = some ⟨4294967290, 0⟩ :=
    Except.ok.inj (hshared'.symm.trans hintersection)
  obtain rfl : inside = false := Except.ok.inj (hinside.symm.trans hcovers)
  refine ⟨hs, ht, hheld, hoverlaps, ?_, hintersection, (htouched _ rfl).2, hcovers, ?_⟩
  · rw [← hnonempty]
    simp
  · rw [← hsubset rfl]
    simp

end Span
end GreenTree
