import GreenTree.Proofs.IntervalTree.Candidates

/-!
# Searches with any test

A search asks its test about the candidates of the query, one after the other. The test may answer
by what it has been asked before, or be stopped by a fault. Either way the search returns what comes
of asking the test about the list of candidates, all of it or up to the first accepted value.
-/

namespace GreenTree
namespace IntervalTree

open Outcome

variable {α σ : Type}

/-- Asks a test about values one after the other: the values that it accepts, and its last state. -/
def askEach (test : α → σ → Except Fault (Bool × σ)) : List α → σ → Except Fault (List α × σ)
  | [], state => pure ([], state)
  | v :: rest, state => do
    let (passed, state') ← test v state
    let (accepted, last) ← askEach test rest state'
    pure (if passed then v :: accepted else accepted, last)

/-- Asks a test about values one after the other until it accepts one. -/
def askUntil (test : α → σ → Except Fault (Bool × σ)) : List α → σ → Except Fault (Option α × σ)
  | [], state => pure (none, state)
  | v :: rest, state => do
    let (passed, state') ← test v state
    if passed then pure (some v, state') else askUntil test rest state'

/-- The test, which also keeps the list of the values it has been asked about. -/
def noting (test : α → σ → Except Fault (Bool × σ)) (v : α) (notes : List α × σ) :
    Except Fault (Bool × List α × σ) := do
  let (passed, state) ← test v notes.2
  pure (passed, notes.1 ++ [v], state)

/-- What a search does with a value it is shown. -/
def Gathered.visit (test : α → σ → Except Fault (Bool × σ)) (firstOnly : Bool) (v : α)
    (g : Gathered σ α) : Except Fault (ForInStep (Gathered σ α)) := do
  let (passed, state) ← test v g.state
  if passed then
    let g' : Gathered σ α := ⟨state, g.buffer.push v, g.added + 1⟩
    pure (if firstOnly then .done g' else .yield g')
  else
    pure (.yield ⟨state, g.buffer, g.added⟩)

/-- What a search for any passing value does with a value it is shown. -/
def visitAny (test : α → σ → Except Fault (Bool × σ)) (v : α) (state : σ) :
    Except Fault (ForInStep σ) := do
  let (passed, state') ← test v state
  pure (if passed then .done state' else .yield state')

variable {test : α → σ → Except Fault (Bool × σ)} {values : List α} {state mid : σ}

theorem askEach_cons {v : α} {passed : Bool} (h : test v state = .ok (passed, mid))
    (rest : List α) : askEach test (v :: rest) state = (do
      let (accepted, last) ← askEach test rest mid
      pure (if passed then v :: accepted else accepted, last)) := by
  rw [askEach, h]
  rfl

theorem askUntil_cons {v : α} {passed : Bool} (h : test v state = .ok (passed, mid))
    (rest : List α) : askUntil test (v :: rest) state =
      if passed then .ok (some v, mid) else askUntil test rest mid := by
  rw [askUntil, h]
  rfl

theorem bindList_visit_all (values : List α) (g : Gathered σ α) :
    (ForInStep.yield g).bindList (Gathered.visit test false) values = (do
      let (accepted, last) ← askEach test values g.state
      pure (.yield ⟨last, g.buffer ++ accepted.toArray, g.added + accepted.length⟩)) := by
  induction values generalizing g with
  | nil => simp [askEach]
  | cons v rest ih =>
    rw [ForInStep.bindList_cons, ForInStep.bind_yield, Gathered.visit, askEach]
    cases test v g.state with
    | error fault => rfl
    | ok answer =>
      obtain ⟨passed, state⟩ := answer
      cases passed with
      | false =>
        simp only [ok_bind, Bool.false_eq_true, ↓reduceIte, pure_eq_ok, ih]
        cases askEach test rest state <;> rfl
      | true =>
        simp only [ok_bind, Bool.false_eq_true, ↓reduceIte, pure_eq_ok, ih]
        cases askEach test rest state with
        | error fault => rfl
        | ok asked => simp [Nat.add_assoc, Nat.add_comm 1]

theorem bindList_visit_first (values : List α) (g : Gathered σ α) :
    (ForInStep.yield g).bindList (Gathered.visit test true) values = (do
      let (first, last) ← askUntil test values g.state
      pure (match first with
        | none => .yield ⟨last, g.buffer, g.added⟩
        | some v => .done ⟨last, g.buffer.push v, g.added + 1⟩)) := by
  induction values generalizing g with
  | nil => simp [askUntil]
  | cons v rest ih =>
    rw [ForInStep.bindList_cons, ForInStep.bind_yield, Gathered.visit, askUntil]
    cases test v g.state with
    | error fault => rfl
    | ok answer =>
      obtain ⟨passed, state⟩ := answer
      cases passed with
      | false => exact ih _
      | true => simp

theorem bindList_visitAny (values : List α) (state : σ) :
    (ForInStep.yield state).bindList (visitAny test) values = (do
      let (first, last) ← askUntil test values state
      pure (if first.isSome then .done last else .yield last)) := by
  induction values generalizing state with
  | nil => simp [askUntil]
  | cons v rest ih =>
    rw [ForInStep.bindList_cons, ForInStep.bind_yield, visitAny, askUntil]
    cases test v state with
    | error fault => rfl
    | ok answer =>
      obtain ⟨passed, state'⟩ := answer
      cases passed with
      | false => exact ih _
      | true => simp

/-- A test that keeps no state accepts the values that pass it. -/
theorem askEach_of_stateless {p : α → Bool}
    (htest : ∀ v ∈ values, ∀ state, test v state = .ok (p v, state)) (state : σ) :
    askEach test values state = .ok (values.filter p, state) := by
  induction values with
  | nil => rfl
  | cons v rest ih =>
    rw [askEach_cons (htest v List.mem_cons_self state),
      ih fun w hw => htest w (List.mem_cons_of_mem _ hw), List.filter_cons]
    rfl

theorem askUntil_of_stateless {p : α → Bool}
    (htest : ∀ v ∈ values, ∀ state, test v state = .ok (p v, state)) (state : σ) :
    askUntil test values state = .ok ((values.filter p).head?, state) := by
  induction values with
  | nil => rfl
  | cons v rest ih =>
    rw [askUntil_cons (htest v List.mem_cons_self state),
      ih fun w hw => htest w (List.mem_cons_of_mem _ hw), List.filter_cons]
    cases p v <;> rfl

/-- Notes are kept of every value, in order, and the test answers as it does without them. -/
theorem askEach_noting (values : List α) (notes : List α) (state : σ) :
    askEach (noting test) values (notes, state) = (do
      let (accepted, last) ← askEach test values state
      pure (accepted, notes ++ values, last)) := by
  induction values generalizing notes state with
  | nil => simp [askEach]
  | cons v rest ih =>
    rw [askEach, askEach, noting]
    cases test v state with
    | error fault => rfl
    | ok answer =>
      obtain ⟨passed, state'⟩ := answer
      simp only [ok_bind, pure_eq_ok, ih, List.append_assoc, List.singleton_append]
      cases askEach test rest state' <;> rfl

theorem askUntil_noting (values : List α) (notes : List α) (state : σ) :
    (do let (first, last) ← askUntil (noting test) values (notes, state)
        pure (first, last.2)) = askUntil test values state := by
  induction values generalizing notes state with
  | nil => rfl
  | cons v rest ih =>
    rw [askUntil, askUntil, noting]
    cases test v state with
    | error fault => rfl
    | ok answer =>
      obtain ⟨passed, state'⟩ := answer
      cases passed with
      | false => exact ih _ _
      | true => rfl

section Candidates

variable [Spanned α] (t : IntervalTree α) {start length : UInt32}
  (hq : (Span.mk start length).Fits)

include hq

theorem gather_all (state : σ) (buffer : Array α) :
    t.gather start length test false state buffer = (do
      let (accepted, last) ← askEach test (t.candidates ⟨start, length⟩) state
      pure ⟨last, buffer ++ accepted.toArray, accepted.length⟩) := by
  rw [gather]
  change t.walk start length (Gathered.visit test false) _ >>= _ = _
  rw [t.walk_eq_bindList hq, bindList_visit_all]
  cases askEach test (t.candidates ⟨start, length⟩) state with
  | error fault => rfl
  | ok asked => simp

theorem gather_first (state : σ) (buffer : Array α) :
    t.gather start length test true state buffer = (do
      let (first, last) ← askUntil test (t.candidates ⟨start, length⟩) state
      pure ⟨last, buffer ++ first.toArray, first.toArray.size⟩) := by
  rw [gather]
  change t.walk start length (Gathered.visit test true) _ >>= _ = _
  rw [t.walk_eq_bindList hq, bindList_visit_first]
  rcases askUntil test (t.candidates ⟨start, length⟩) state with fault | ⟨_ | v, last⟩
  · rfl
  · simp
  · simp

theorem any_eq (state : σ) :
    t.any start length test state = (do
      let (first, last) ← askUntil test (t.candidates ⟨start, length⟩) state
      pure (first.isSome, last)) := by
  rw [any]
  change t.walk start length (visitAny test) _ >>= _ = _
  rw [t.walk_eq_bindList hq, bindList_visitAny]
  rcases askUntil test (t.candidates ⟨start, length⟩) state with fault | ⟨_ | v, last⟩ <;> rfl

theorem gather_noting (firstOnly : Bool) (notes : List α) (state : σ) (buffer : Array α) :
    t.gather start length test firstOnly state buffer = (do
      let g ← t.gather start length (noting test) firstOnly (notes, state) buffer
      pure ⟨g.state.2, g.buffer, g.added⟩) := by
  cases firstOnly with
  | false =>
    rw [gather_all t hq, gather_all t hq, askEach_noting]
    cases askEach test (t.candidates ⟨start, length⟩) state <;> rfl
  | true =>
    rw [gather_first t hq, gather_first t hq, ← askUntil_noting _ notes]
    cases askUntil (noting test) (t.candidates ⟨start, length⟩) (notes, state) <;> rfl

theorem any_noting (notes : List α) (state : σ) :
    t.any start length test state = (do
      let (found, last) ← t.any start length (noting test) (notes, state)
      pure (found, last.2)) := by
  rw [any_eq t hq, any_eq t hq, ← askUntil_noting _ notes]
  cases askUntil (noting test) (t.candidates ⟨start, length⟩) (notes, state) <;> rfl

end Candidates

/-- After refused values a test is asked about the others. -/
theorem askUntil_append (h : askEach test values state = .ok ([], mid)) (later : List α) :
    askUntil test (values ++ later) state = askUntil test later mid := by
  induction values generalizing state with
  | nil =>
    cases h
    rfl
  | cons v rest ih =>
    obtain ⟨⟨passed, state'⟩, hv, h⟩ := bind_eq_ok_iff.mp h
    obtain ⟨⟨accepted, last⟩, hrest, h⟩ := bind_eq_ok_iff.mp h
    cases passed with
    | true => cases h
    | false =>
      cases h
      rw [List.cons_append, askUntil_cons hv]
      exact ih hrest

/-- A test comes to a value if it is asked about the value after it has refused those before. -/
structure ComesTo (test : α → σ → Except Fault (Bool × σ)) (values : List α) (state : σ)
    (earlier : List α) (v : α) (mid : σ) : Prop where
  isPrefix : earlier ++ [v] <+: values
  refused : askEach test earlier state = .ok ([], mid)

/-- A test refuses all values, or it comes to a value that it does not refuse. -/
theorem refused_or_comesTo (test : α → σ → Except Fault (Bool × σ)) (values : List α) (state : σ) :
    (∃ last, askEach test values state = .ok ([], last)) ∨
      ∃ earlier v mid, ComesTo test values state earlier v mid ∧
        ((∃ last, test v mid = .ok (true, last)) ∨ ∃ fault, test v mid = .error fault) := by
  induction values generalizing state with
  | nil => exact .inl ⟨state, rfl⟩
  | cons v rest ih =>
    have hhead : ComesTo test (v :: rest) state [] v state := ⟨⟨rest, rfl⟩, rfl⟩
    rcases hv : test v state with fault | ⟨_ | _, state'⟩
    · exact .inr ⟨[], v, state, hhead, .inr ⟨fault, hv⟩⟩
    · have hskip : ∀ {values last}, askEach test values state' = .ok ([], last) →
          askEach test (v :: values) state = .ok ([], last) := by
        intro values last h
        rw [askEach_cons hv, h]
        rfl
      rcases ih state' with ⟨last, hrest⟩ | ⟨earlier, w, mid, ⟨hfrom, hrefused⟩, hw⟩
      · exact .inl ⟨last, hskip hrest⟩
      · exact .inr ⟨v :: earlier, w, mid, ⟨(List.prefix_cons_inj v).mpr hfrom, hskip hrefused⟩, hw⟩
    · exact .inr ⟨[], v, state, hhead, .inl ⟨state', hv⟩⟩

theorem askUntil_of_refused {last : σ} (h : askEach test values state = .ok ([], last)) :
    askUntil test values state = .ok (none, last) := by
  have hall := askUntil_append h []
  rwa [List.append_nil] at hall

namespace ComesTo

variable {earlier : List α} {v : α} (h : ComesTo test values state earlier v mid)

include h

theorem askUntil_of_accepted {last : σ} (hv : test v mid = .ok (true, last)) :
    askUntil test values state = .ok (some v, last) := by
  obtain ⟨⟨later, rfl⟩, hrefused⟩ := h
  rw [List.append_assoc, List.singleton_append, askUntil_append hrefused, askUntil_cons hv]
  rfl

theorem askUntil_of_fault {fault : Fault} (hv : test v mid = .error fault) :
    askUntil test values state = .error fault := by
  obtain ⟨⟨later, rfl⟩, hrefused⟩ := h
  rw [List.append_assoc, List.singleton_append, askUntil_append hrefused, askUntil, hv]
  rfl

theorem noting (notes : List α) :
    ComesTo (noting test) values (notes, state) earlier v (notes ++ earlier, mid) where
  isPrefix := h.isPrefix
  refused := by
    rw [askEach_noting, h.refused]
    rfl

end ComesTo

end IntervalTree
end GreenTree
