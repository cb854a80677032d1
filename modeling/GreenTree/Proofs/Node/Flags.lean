import GreenTree.Node.Flags
import Mathlib.Tactic

/-!
# Flags of a union

What a union of flags has is what its parts have. Nothing that a node takes over from its children
tells whether the node is missing. A single flag is had as a whole or not at all, so it is included
in a union exactly if it is included in one of the parts.
-/

namespace GreenTree.Flags

variable {f g : Flags}

theorem or_and (f g h : Flags) : (f ||| g) &&& h = f &&& h ||| g &&& h := by
  obtain ⟨f⟩ := f
  obtain ⟨g⟩ := g
  obtain ⟨h⟩ := h
  exact congrArg Flags.mk (UInt16.toBitVec_inj.mp BitVec.and_or_distrib_right)

theorem or_eq_none_iff : f ||| g = none ↔ f = none ∧ g = none := by
  obtain ⟨f⟩ := f
  obtain ⟨g⟩ := g
  change Flags.mk (f ||| g) = ⟨0⟩ ↔ Flags.mk f = ⟨0⟩ ∧ Flags.mk g = ⟨0⟩
  simp only [Flags.mk.injEq, UInt16.or_eq_zero_iff]

theorem or_meets_iff (f g h : Flags) :
    (f ||| g).meets h = true ↔ f.meets h = true ∨ g.meets h = true := by
  simp only [meets, bne_iff_ne, or_and, ne_eq, or_eq_none_iff, not_and_or]

theorem meets_comm (f g : Flags) : f.meets g = g.meets f := by
  have hand : f &&& g = g &&& f := congrArg Flags.mk (UInt16.and_comm ..)
  rw [meets, meets, hand]

theorem meets_or_iff (f g h : Flags) :
    f.meets (g ||| h) = true ↔ f.meets g = true ∨ f.meets h = true := by
  rw [meets_comm f, or_meets_iff, meets_comm g, meets_comm h]

theorem and_and_eq_none (f : Flags) {g h : Flags} (hgh : g &&& h = none) :
    f &&& g &&& h = none := by
  have hbits : g.bits &&& h.bits = 0 := congrArg Flags.bits hgh
  apply congrArg Flags.mk
  calc f.bits &&& g.bits &&& h.bits
      = f.bits &&& (g.bits &&& h.bits) := UInt16.and_assoc ..
    _ = 0 := by rw [hbits, UInt16.and_zero]

theorem isMissing_or_inherited (f g : Flags) : (f ||| g.inherited).isMissing = f.isMissing := by
  have hpresent : g.inherited &&& present = none := and_and_eq_none g (by decide)
  have hsame : (f ||| g.inherited) &&& present = f &&& present := by
    rw [or_and, hpresent]
    exact congrArg Flags.mk UInt16.or_zero
  rw [isMissing, isMissing, includes, includes, hsame]

theorem isDecorated_inherited {f : Flags} (h : f.isDecorated = false) :
    f.inherited.isDecorated = false := by
  simp only [isDecorated, meets, bne_eq_false_iff_eq] at h ⊢
  calc f &&& inheritance &&& decoration
      = f &&& (inheritance &&& decoration) := congrArg Flags.mk (UInt16.and_assoc ..)
    _ = f &&& (decoration &&& inheritance) :=
        congrArg (fun g : Flags => f &&& g) (congrArg Flags.mk (UInt16.and_comm ..))
    _ = f &&& decoration &&& inheritance := congrArg Flags.mk (UInt16.and_assoc ..).symm
    _ = none := by rw [h]; decide

theorem isDecorated_ofToken (f : Flags) : f.ofToken.isDecorated = false := by
  have hplain : f.undecorated &&& decoration = none := and_and_eq_none f (by decide)
  have hboth : f.ofToken &&& decoration = none := by
    rw [ofToken, or_and, hplain]
    decide
  rw [isDecorated, meets, hboth]
  rfl

theorem isMissing_ofToken (f : Flags) : f.ofToken.isMissing = false := by
  have hpresent : f.ofToken &&& present = present := by
    apply congrArg Flags.mk
    change (f.undecorated.bits ||| present.bits) &&& present.bits = present.bits
    rw [← UInt16.toBitVec_inj]
    simp only [UInt16.toBitVec_and, UInt16.toBitVec_or]
    ext i
    simp only [BitVec.getElem_and, BitVec.getElem_or]
    cases present.bits.toBitVec[i] <;> simp
  simp [isMissing, includes, hpresent]

theorem and_includes_of_disjoint (f : Flags) {mask g : Flags} (hg : g ≠ none)
    (hmask : mask &&& g = none) : (f &&& mask).includes g = false := by
  simp [includes, and_and_eq_none f hmask, hg.symm]

theorem and_includes_of_within (f : Flags) {mask g : Flags} (hmask : mask &&& g = g) :
    (f &&& mask).includes g = f.includes g := by
  have hand : f &&& mask &&& g = f &&& (mask &&& g) := congrArg Flags.mk (UInt16.and_assoc ..)
  simp only [includes, hand, hmask]

/-- A flag of which no part can be set alone. -/
structure Atomic (g : Flags) : Prop where
  ne_none : g ≠ none
  whole : ∀ f, f &&& g = none ∨ f &&& g = g

theorem atomic_bit {i : ℕ} (hi : i < 16) : Atomic ⟨⟨BitVec.twoPow 16 i⟩⟩ := by
  constructor
  · intro h
    have hbits : BitVec.twoPow 16 i = 0#16 := congrArg (fun f => f.bits.toBitVec) h
    have hbit := congrArg (BitVec.getLsbD · i) hbits
    simp [hi] at hbit
  · rintro ⟨⟨bits⟩⟩
    change Flags.mk ⟨bits &&& BitVec.twoPow 16 i⟩ = ⟨⟨0#16⟩⟩ ∨
      Flags.mk ⟨bits &&& BitVec.twoPow 16 i⟩ = ⟨⟨BitVec.twoPow 16 i⟩⟩
    rw [BitVec.and_twoPow]
    by_cases hbit : bits.getLsbD i = true
    · exact .inr (by rw [if_pos hbit])
    · exact .inl (by rw [if_neg hbit])

theorem atomic_hasDiagnostics : hasDiagnostics.Atomic := atomic_bit (i := 1) (by decide)

theorem atomic_hasAnnotations : hasAnnotations.Atomic := atomic_bit (i := 2) (by decide)

theorem atomic_containsDiagnostics : containsDiagnostics.Atomic := atomic_bit (i := 3) (by decide)

theorem atomic_containsAnnotations : containsAnnotations.Atomic := atomic_bit (i := 4) (by decide)

theorem atomic_containsSkippedText : containsSkippedText.Atomic := atomic_bit (i := 5) (by decide)

theorem Atomic.includes_iff_meets (hg : g.Atomic) (f : Flags) :
    f.includes g = true ↔ f.meets g = true := by
  obtain h | h := hg.whole f
  · simp [includes, meets, h, hg.ne_none.symm]
  · simp [includes, meets, h, hg.ne_none]

theorem Atomic.or_includes_iff (hg : g.Atomic) (f f' : Flags) :
    (f ||| f').includes g = true ↔ f.includes g = true ∨ f'.includes g = true := by
  simp only [hg.includes_iff_meets, or_meets_iff]

end GreenTree.Flags
