/-!
# Offsets

Byte offsets are 32-bit words. Their sums are either refused or capped when they leave the word.
-/

namespace GreenTree.Offset

/-- The sum of two offsets, if it is an offset. -/
def sum? (a b : UInt32) : Option UInt32 :=
  if a.toNat + b.toNat < UInt32.size then some (a + b) else none

/-- The sum of two offsets, or the largest offset where there is no sum. -/
def cappedSum (a b : UInt32) : UInt32 :=
  (sum? a b).getD 4294967295

theorem toNat_of_sum? {a b c : UInt32} (h : sum? a b = some c) : c.toNat = a.toNat + b.toNat := by
  unfold sum? at h
  split at h
  · cases h
    rw [UInt32.toNat_add]
    exact Nat.mod_eq_of_lt ‹_›
  · cases h

theorem sum?_eq_none_iff {a b : UInt32} :
    sum? a b = none ↔ UInt32.size ≤ a.toNat + b.toNat := by
  unfold sum?
  split
  · simp only [reduceCtorEq, false_iff, Nat.not_le]
    assumption
  · simp only [true_iff]
    exact Nat.le_of_not_lt ‹_›

theorem toNat_cappedSum (a b : UInt32) :
    (cappedSum a b).toNat = min (a.toNat + b.toNat) (UInt32.size - 1) := by
  cases h : sum? a b with
  | none =>
    have := sum?_eq_none_iff.mp h
    simp only [cappedSum, h, Option.getD_none, UInt32.size] at *
    simp
    omega
  | some c =>
    have hc := toNat_of_sum? h
    have hlt := c.toNat_lt
    simp only [cappedSum, h, Option.getD_some, UInt32.size]
    omega

end GreenTree.Offset
