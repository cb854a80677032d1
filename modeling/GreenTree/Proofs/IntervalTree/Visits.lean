import GreenTree.Proofs.IntervalTree.Queries

/-!
# What a walk visits

A walk over a tree made by insertions visits the candidates of its query, whatever it is asked to do
with them.
-/

namespace GreenTree
namespace IntervalTree

open Spanned Outcome

variable {α : Type} [Spanned α]

/-- Every query over a tree made by insertions has a list of values, in tree order and with all that
touch the query among them, which every test is asked about, also one that answers by what it was
asked before. A search for all values asks about the whole list and appends what is accepted. A
search for the first one, or for any, asks no further than the first accepted value, and a fault of
the test stops it. The notes that are kept of the values asked about change nothing. -/
theorem tests_are_asked_about_candidates (values : List α) (fits : ∀ v ∈ values, Fits v) :
    ∃ t, ofList values = .ok t ∧
      ∀ start length : UInt32, (Span.mk start length).Fits → ∃ shown : List α,
        shown.Sublist t.toList ∧
        (shown.filter fun v => Match.touching.Holds v ⟨start, length⟩) =
          t.allMatching .touching ⟨start, length⟩ ∧
        ∀ {σ : Type} (test : α → σ → Except Fault (Bool × σ)) (state : σ) (buffer : Array α),
          let all := t.gather start length (noting test) false ([], state) buffer
          let first := t.gather start length (noting test) true ([], state) buffer
          let any := t.any start length (noting test) ([], state)
          (∀ firstOnly, t.gather start length test firstOnly state buffer = (do
            let g ← t.gather start length (noting test) firstOnly ([], state) buffer
            pure ⟨g.state.2, g.buffer, g.added⟩)) ∧
          (t.any start length test state = (do
            let (found, notes) ← t.any start length (noting test) ([], state)
            pure (found, notes.2))) ∧
          (all = (do
            let (accepted, last) ← askEach test shown state
            pure ⟨(shown, last), buffer ++ accepted.toArray, accepted.length⟩)) ∧
          ((∃ last, askEach test shown state = .ok ([], last) ∧
              first = .ok ⟨(shown, last), buffer, 0⟩ ∧ any = .ok (false, shown, last)) ∨
            ∃ earlier v mid, ComesTo test shown state earlier v mid ∧
              ((∃ last, test v mid = .ok (true, last) ∧
                  first = .ok ⟨(earlier ++ [v], last), buffer.push v, 1⟩ ∧
                  any = .ok (true, earlier ++ [v], last)) ∨
                ∃ fault, test v mid = .error fault ∧ first = .error fault ∧
                  any = .error fault)) := by
  obtain ⟨t, ht, hsound⟩ := sound_ofList values fits
  refine ⟨t, ht, ?_⟩
  intro start length hq
  refine ⟨t.candidates ⟨start, length⟩, ?_, filter_candidates_eq hsound .touching hq, ?_⟩
  · rw [toList_eq]
    exact Walk.candidates_sublist _ _ _
  intro σ test state buffer all first any
  have hall : all = _ := gather_all t hq ([], state) buffer
  have hfirst : first = _ := gather_first t hq ([], state) buffer
  have hany : any = _ := any_eq t hq ([], state)
  refine ⟨fun firstOnly => gather_noting t hq firstOnly [] state buffer,
    any_noting t hq [] state, ?_, ?_⟩
  · rw [hall, askEach_noting]
    cases askEach test (t.candidates ⟨start, length⟩) state <;> rfl
  rcases refused_or_comesTo test (t.candidates ⟨start, length⟩) state with
    ⟨last, hrefused⟩ | ⟨earlier, v, mid, hcomes, ⟨last, hv⟩ | ⟨fault, hv⟩⟩
  · have hnotes : askEach (noting test) (t.candidates ⟨start, length⟩) ([], state) =
        .ok ([], t.candidates ⟨start, length⟩, last) := by
      rw [askEach_noting, hrefused]
      rfl
    rw [askUntil_of_refused hnotes] at hfirst hany
    exact .inl ⟨last, hrefused, hfirst, hany⟩
  · have hnotes : noting test v (earlier, mid) = .ok (true, earlier ++ [v], last) := by
      rw [noting, hv]
      rfl
    rw [(hcomes.noting []).askUntil_of_accepted hnotes] at hfirst hany
    exact .inr ⟨earlier, v, mid, hcomes, .inl ⟨last, hv, hfirst, hany⟩⟩
  · have hnotes : noting test v (earlier, mid) = .error fault := by
      rw [noting, hv]
      rfl
    rw [(hcomes.noting []).askUntil_of_fault hnotes] at hfirst hany
    exact .inr ⟨earlier, v, mid, hcomes, .inr ⟨fault, hv, hfirst, hany⟩⟩

/-- The test accepts every other value it is asked about. It is asked about one value that starts
after the query, and about none of the two that end before it. -/
theorem tests_are_asked_about_candidates_every_other :
    let values := [Span.mk 0 5, Span.mk 3 4, Span.mk 20 2, Span.mk 8 1, Span.mk 4 9, Span.mk 3 1]
    let shown := [Span.mk 3 4, Span.mk 4 9, Span.mk 8 1, Span.mk 20 2]
    let everyOther : Span → ℕ → Except Fault (Bool × ℕ) := fun _ calls =>
      .ok (calls % 2 == 1, calls + 1)
    (∀ v ∈ values, Fits v) ∧ (Span.mk 6 2).Fits ∧ ∃ t, ofList values = .ok t ∧
      t.allMatching .touching ⟨6, 2⟩ = [Span.mk 3 4, Span.mk 4 9, Span.mk 8 1] ∧
      t.gather 6 2 (noting everyOther) false ([], 0) #[Span.mk 1 1] =
        .ok ⟨(shown, 4), #[Span.mk 1 1, Span.mk 4 9, Span.mk 20 2], 2⟩ ∧
      t.gather 6 2 everyOther false 0 #[Span.mk 1 1] =
        .ok ⟨4, #[Span.mk 1 1, Span.mk 4 9, Span.mk 20 2], 2⟩ := by
  intro values shown everyOther
  have fits : ∀ v ∈ values, Fits v := by decide
  have hq : (Span.mk 6 2).Fits := by decide
  have hnotes : passes (ofList values >>= fun t =>
      t.gather 6 2 (noting everyOther) false ([], 0) #[Span.mk 1 1])
      (fun g => g.state.1 == shown) = true := by decide +kernel
  obtain ⟨t, ht, hqueries⟩ := tests_are_asked_about_candidates values fits
  obtain ⟨shown', -, hcover, htests⟩ := hqueries 6 2 hq
  obtain ⟨hsame, -, hall, -⟩ := htests everyOther 0 #[Span.mk 1 1]
  rw [ht] at hnotes
  obtain ⟨g, hg, hnotes⟩ := exists_of_passes hnotes
  -- The notes tell the list that the theorem speaks of.
  obtain rfl : shown = shown' := by
    obtain ⟨asked, -, heq⟩ := bind_eq_ok_iff.mp (hall.symm.trans hg)
    cases heq
    exact (beq_iff_eq.mp hnotes).symm
  have hsearch := hsame false
  rw [hall] at hsearch
  exact ⟨fits, hq, t, ht, hcover.symm, hall, hsearch⟩

end IntervalTree
end GreenTree
