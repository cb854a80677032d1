import GreenTree.Span.Basic
import GreenTree.Proofs.Outcome

/-!
# Spans as ranges of numbers

The end of a span, taken as an unbounded number, tells whether the span has an end among the
offsets. Between spans that have one no test is ever stopped, and every test is a comparison of
numbers.
-/

namespace GreenTree
namespace Span

/-- The end of the span as a number, also where it is no offset. -/
def endNat (s : Span) : ℕ := s.start.toNat + s.length.toNat

/-- The end of the span is an offset. -/
def Fits (s : Span) : Prop := s.endNat < UInt32.size

instance (s : Span) : Decidable s.Fits := inferInstanceAs (Decidable (_ < _))

/-- The end of the span as a word. -/
def endWord (s : Span) : UInt32 := s.start + s.length

variable {s t : Span}

theorem toNat_endWord (hs : s.Fits) : s.endWord.toNat = s.endNat := by
  rw [endWord, UInt32.toNat_add]
  exact Nat.mod_eq_of_lt hs

theorem stop_of_fits (hs : s.Fits) : s.stop = .ok s.endWord := by
  have hsum : Offset.sum? s.start s.length = some s.endWord := if_pos hs
  simp [stop, hsum]

theorem stop_of_not_fits (hs : ¬ s.Fits) : s.stop = .error .additionOverflow := by
  have hsum : Offset.sum? s.start s.length = none := if_neg hs
  simp [stop, hsum]

theorem ofLength_of_fits {start length : UInt32} (h : (Span.mk start length).Fits) :
    ofLength start length = .ok ⟨start, length⟩ := by
  have hsum : Offset.sum? start length = some (Span.mk start length).endWord := if_pos h
  simp [ofLength, hsum]

theorem ofLength_of_not_fits {start length : UInt32} (h : ¬ (Span.mk start length).Fits) :
    ofLength start length = .error (.spanEndOverflow start length) := by
  have hsum : Offset.sum? start length = none := if_neg h
  simp [ofLength, hsum]

theorem toNat_cappedSum_of_fits {start length : UInt32} (h : (Span.mk start length).Fits) :
    (Offset.cappedSum start length).toNat = start.toNat + length.toNat := by
  rw [Offset.toNat_cappedSum]
  exact Nat.min_eq_left (Nat.le_sub_one_of_lt h)

theorem toNat_max (a b : UInt32) : (max a b).toNat = max a.toNat b.toNat := by
  change (if a ≤ b then b else a).toNat = _
  split_ifs with h <;> rw [UInt32.le_iff_toNat_le] at h <;> omega

theorem toNat_min (a b : UInt32) : (min a b).toNat = min a.toNat b.toNat := by
  change (if a ≤ b then a else b).toNat = _
  split_ifs with h <;> rw [UInt32.le_iff_toNat_le] at h <;> omega

theorem overlaps_of_fits (hs : s.Fits) (ht : t.Fits) :
    s.overlaps t =
      .ok (decide (max s.start.toNat t.start.toNat < min s.endNat t.endNat)) := by
  have hlt : max s.start t.start < min s.endWord t.endWord ↔
      max s.start.toNat t.start.toNat < min s.endNat t.endNat := by
    rw [UInt32.lt_iff_toNat_lt, toNat_max, toNat_min, toNat_endWord hs, toNat_endWord ht]
  simp [overlaps, commonBounds, stop_of_fits hs, stop_of_fits ht, hlt]

theorem touches_of_fits (hs : s.Fits) (ht : t.Fits) :
    s.touches t = .ok (decide (t.start.toNat ≤ s.endNat ∧ s.start.toNat ≤ t.endNat)) := by
  have hfirst : t.start ≤ s.endWord ↔ t.start.toNat ≤ s.endNat := by
    rw [UInt32.le_iff_toNat_le, toNat_endWord hs]
  have hsecond : s.start ≤ t.endWord ↔ s.start.toNat ≤ t.endNat := by
    rw [UInt32.le_iff_toNat_le, toNat_endWord ht]
  simp only [← hfirst, ← hsecond]
  by_cases h : t.start ≤ s.endWord
  · simp [touches, stop_of_fits hs, stop_of_fits ht, h]
  · simp [touches, stop_of_fits hs, h]

theorem covers_of_fits (hs : s.Fits) (ht : t.Fits) :
    s.covers t = .ok (decide (s.start.toNat ≤ t.start.toNat ∧ t.endNat ≤ s.endNat)) := by
  have hfirst : s.start ≤ t.start ↔ s.start.toNat ≤ t.start.toNat := UInt32.le_iff_toNat_le
  have hsecond : t.endWord ≤ s.endWord ↔ t.endNat ≤ s.endNat := by
    rw [UInt32.le_iff_toNat_le, toNat_endWord hs, toNat_endWord ht]
  simp only [← hfirst, ← hsecond]
  by_cases h : s.start ≤ t.start
  · simp [covers, stop_of_fits hs, stop_of_fits ht, h]
  · simp [covers, h]

end Span

namespace Spanned

variable {α : Type} [Spanned α]

def startNat (v : α) : ℕ := (span v).start.toNat

/-- The end of a value as a number, also where it is no offset. -/
def endNat (v : α) : ℕ := (span v).endNat

/-- The end of the value is an offset. -/
def Fits (v : α) : Prop := (span v).Fits

instance (v : α) : Decidable (Fits v) := inferInstanceAs (Decidable (Span.Fits _))

theorem startNat_le_endNat (v : α) : startNat v ≤ endNat v := Nat.le_add_right _ _

theorem start_lt_iff {v w : α} : (span v).start < (span w).start ↔ startNat v < startNat w :=
  UInt32.lt_iff_toNat_lt

end Spanned
end GreenTree
