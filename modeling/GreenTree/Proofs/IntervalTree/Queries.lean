import GreenTree.IntervalTree.Query
import GreenTree.Proofs.IntervalTree.Iteration
import GreenTree.Proofs.IntervalTree.Searches

/-!
# Queries against all values

Each of the three matches is a comparison of numbers that only values touching the query satisfy. So
a query over the candidates finds what testing every value of the tree would find, in the same
order.
-/

namespace GreenTree
namespace IntervalTree

open Spanned Outcome

variable {α : Type} [Spanned α]

/-- Whether the value lies as the match asks. Ends are not included, except that a value touches a
query also where only an end meets a start. -/
def Match.Holds (m : Match) (v : α) (query : Span) : Prop :=
  match m with
  | .overlapping =>
    max (startNat v) query.start.toNat < min (endNat v) query.endNat
  | .touching => query.start.toNat ≤ endNat v ∧ startNat v ≤ query.endNat
  | .covering => startNat v ≤ query.start.toNat ∧ query.endNat ≤ endNat v

instance (m : Match) (v : α) (query : Span) : Decidable (m.Holds v query) :=
  match m with
  | .overlapping => inferInstanceAs (Decidable (_ < _))
  | .touching => inferInstanceAs (Decidable (_ ∧ _))
  | .covering => inferInstanceAs (Decidable (_ ∧ _))

theorem Match.test_of_fits (m : Match) {v : α} {start length : UInt32} (hv : Fits v)
    (hq : (Span.mk start length).Fits) :
    m.test v start length = .ok (decide (m.Holds v ⟨start, length⟩)) := by
  rw [Match.test, Span.ofLength_of_fits hq, ok_bind]
  cases m with
  | overlapping => exact Span.overlaps_of_fits hv hq
  | touching => exact Span.touches_of_fits hv hq
  | covering => exact Span.covers_of_fits hv hq

theorem Match.Holds.touches {m : Match} {v : α} {query : Span} (h : m.Holds v query) :
    startNat v ≤ query.endNat ∧ query.start.toNat ≤ endNat v := by
  have hv := startNat_le_endNat v
  have hq : query.start.toNat ≤ query.endNat := Nat.le_add_right _ _
  cases m <;> simp only [Match.Holds] at h <;> omega

/-- The values of the tree that match, found by testing every one of them. -/
def allMatching (t : IntervalTree α) (m : Match) (query : Span) : List α :=
  t.toList.filter fun v => m.Holds v query

theorem filter_candidates_eq {t : IntervalTree α} (ht : t.Sound) (m : Match) {query : Span}
    (hq : query.Fits) :
    ((t.candidates query).filter fun v => m.Holds v query) = t.allMatching m query := by
  rw [allMatching, toList_eq]
  apply Walk.filter_candidates ht.ordered ht.endsStored
  intro v hv
  rw [Span.toNat_endWord hq]
  exact (of_decide_eq_true hv).touches

theorem fits_of_mem_candidates {t : IntervalTree α} (ht : t.Sound) {query : Span} {v : α}
    (hv : v ∈ t.candidates query) : Fits v :=
  ht.endsStored.fits ((Walk.candidates_sublist _ _ _).subset hv)

section Answers

variable {t : IntervalTree α} (ht : t.Sound) (m : Match) {start length : UInt32}
  (hq : (Span.mk start length).Fits)

include ht hq

theorem stateless_of_mem_candidates :
    ∀ v ∈ t.candidates ⟨start, length⟩, ∀ state, m.stateless start length v state =
      .ok (decide (m.Holds v ⟨start, length⟩), state) := by
  intro v hv state
  rw [Match.stateless, m.test_of_fits (fits_of_mem_candidates ht hv) hq, ok_bind]
  rfl

theorem fill_eq (buffer : Array α) :
    t.fill m start length buffer =
      .ok ((t.allMatching m ⟨start, length⟩).length,
        buffer ++ (t.allMatching m ⟨start, length⟩).toArray) := by
  rw [fill, gather_all t hq, askEach_of_stateless (stateless_of_mem_candidates ht m hq),
    filter_candidates_eq ht m hq]
  rfl

theorem matching_eq : t.matching m start length = .ok (t.allMatching m ⟨start, length⟩) := by
  rw [matching, fill_eq ht m hq]
  simp

theorem first?_eq : t.first? m start length = .ok (t.allMatching m ⟨start, length⟩).head? := by
  rw [first?, gather_first t hq, askUntil_of_stateless (stateless_of_mem_candidates ht m hq),
    filter_candidates_eq ht m hq]
  cases (t.allMatching m ⟨start, length⟩).head? <;> rfl

theorem has_eq :
    t.has m start length = .ok (!(t.allMatching m ⟨start, length⟩).isEmpty) := by
  rw [has, any_eq t hq, askUntil_of_stateless (stateless_of_mem_candidates ht m hq),
    filter_candidates_eq ht m hq]
  cases t.allMatching m ⟨start, length⟩ <;> rfl

end Answers

/-- A tree made by insertions has every value once. Every query over it whose end is an offset finds
the values that testing all of them finds, in tree order, and appends, counts or picks those. -/
theorem queries_find_all_matching (values : List α) (fits : ∀ v ∈ values, Fits v) :
    ∃ t, ofList values = .ok t ∧ t.toList.Perm values ∧
      ∀ (m : Match) (start length : UInt32), (Span.mk start length).Fits →
        (∀ buffer, t.fill m start length buffer =
          .ok ((t.allMatching m ⟨start, length⟩).length,
            buffer ++ (t.allMatching m ⟨start, length⟩).toArray)) ∧
        t.matching m start length = .ok (t.allMatching m ⟨start, length⟩) ∧
        t.has m start length = .ok (!(t.allMatching m ⟨start, length⟩).isEmpty) ∧
        t.first? m start length = .ok (t.allMatching m ⟨start, length⟩).head? := by
  obtain ⟨t, ht, hsound, hsorted⟩ := stablySorted_ofList values fits
  refine ⟨t, ht, toList_eq t ▸ hsorted.perm, ?_⟩
  intro m start length hq
  exact ⟨fill_eq hsound m hq, matching_eq hsound m hq, has_eq hsound m hq, first?_eq hsound m hq⟩

/-- The value that ends at the last offset touches the empty query there and does not overlap it. -/
theorem queries_find_all_matching_at_last_offset :
    let values := [Span.mk 3 4, Span.mk 4294967290 5, Span.mk 3 0]
    (∀ v ∈ values, Fits v) ∧ (Span.mk 4294967295 0).Fits ∧
      ∃ t, ofList values = .ok t ∧
        t.allMatching .touching ⟨4294967295, 0⟩ = [Span.mk 4294967290 5] ∧
        t.fill .touching 4294967295 0 #[Span.mk 1 1] =
          .ok (1, #[Span.mk 1 1, Span.mk 4294967290 5]) ∧
        t.has .overlapping 4294967295 0 = .ok false := by
  intro values
  have fits : ∀ v ∈ values, Fits v := by decide
  have hq : (Span.mk 4294967295 0).Fits := by decide
  obtain ⟨t, ht, -, hqueries⟩ := queries_find_all_matching values fits
  have hall : (ofList values).map (·.allMatching .touching ⟨4294967295, 0⟩) =
    .ok [Span.mk 4294967290 5] := by decide +kernel
  have hnone : (ofList values).map (·.allMatching .overlapping ⟨4294967295, 0⟩) = .ok [] := by
    decide +kernel
  rw [ht] at hall hnone
  have hall' : t.allMatching .touching ⟨4294967295, 0⟩ = [Span.mk 4294967290 5] :=
    Except.ok.inj hall
  have hnone' : t.allMatching .overlapping ⟨4294967295, 0⟩ = [] := Except.ok.inj hnone
  refine ⟨fits, hq, t, ht, hall', ?_, ?_⟩
  · rw [(hqueries .touching 4294967295 0 hq).1, hall']
    rfl
  · rw [(hqueries .overlapping 4294967295 0 hq).2.2.1, hnone']
    rfl

end IntervalTree
end GreenTree
