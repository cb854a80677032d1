import GreenTree.Proofs.IntervalTree.Queries

/-!
# Overflows

Two sums can leave the offsets: the end of a new value, and the end of a query. The end of a new
value is computed before anything else is done with it, and ends of values that are in a tree have
been computed before. So a value without an end is refused and no other one is, and a query is
stopped only by its own end, unless there is nothing to search.
-/

namespace GreenTree
namespace IntervalTree

open Spanned Outcome

variable {α : Type} [Spanned α]

theorem Subtree.insert_of_not_fits {v : α} (hv : ¬ Fits v) (t : Subtree α) :
    t.insert v = .error .additionOverflow := by
  induction t with
  | empty =>
    rw [insert, join, Span.stop_of_not_fits hv]
    rfl
  | node l u r h m ihl ihr =>
    rw [insert]
    split_ifs with hlt
    · rw [ihl]
      rfl
    · rw [ihr]
      rfl

theorem insert_of_not_fits {v : α} (hv : ¬ Fits v) (t : IntervalTree α) :
    t.insert v = .error .additionOverflow := by
  rw [insert, Subtree.insert_of_not_fits hv]
  rfl

/-- The insertions before the first value without an end succeed, and the insertion of this value
stops them. -/
theorem ofList_of_not_fits {earlier : List α} {v : α} (fits : ∀ w ∈ earlier, Fits w)
    (hv : ¬ Fits v) (later : List α) :
    ofList (earlier ++ v :: later) = .error .additionOverflow := by
  obtain ⟨t, ht, -⟩ := sound_ofList earlier fits
  rw [ofList] at ht
  rw [ofList, insertAll_append, ht, ok_bind, insertAll, insert_of_not_fits hv]
  rfl

theorem fits_of_insertAll {values : List α} {t t' : IntervalTree α}
    (h : t.insertAll values = .ok t') : ∀ v ∈ values, Fits v := by
  induction values generalizing t with
  | nil => simp
  | cons v rest ih =>
    obtain ⟨next, hnext, hrest⟩ := bind_eq_ok_iff.mp h
    refine List.forall_mem_cons.mpr ⟨?_, ih hrest⟩
    by_contra hv
    rw [insert_of_not_fits hv] at hnext
    cases hnext

section Searches

variable {σ : Type} {t : IntervalTree α} {start length : UInt32}

theorem walk_of_isEmpty (h : t.isEmpty = true) (visit : α → σ → Except Fault (ForInStep σ))
    (state : σ) : t.walk start length visit state = .ok (.yield state) := by
  obtain ⟨root, size⟩ := t
  cases root with
  | empty => rfl
  | node l v r height m => cases h

theorem walk_of_not_fits (h : t.isEmpty = false) (hq : ¬ (Span.mk start length).Fits)
    (visit : α → σ → Except Fault (ForInStep σ)) (state : σ) :
    t.walk start length visit state = .error (.queryEndOverflow start length) := by
  obtain ⟨root, size⟩ := t
  cases root with
  | empty => cases h
  | node l v r height m =>
    have hsum : Offset.sum? start length = none := if_neg hq
    simp only [walk, hsum]

theorem gather_of_isEmpty (h : t.isEmpty = true) (test : α → σ → Except Fault (Bool × σ))
    (firstOnly : Bool) (state : σ) (buffer : Array α) :
    t.gather start length test firstOnly state buffer = .ok ⟨state, buffer, 0⟩ := by
  rw [gather, walk_of_isEmpty h]
  rfl

theorem any_of_isEmpty (h : t.isEmpty = true) (test : α → σ → Except Fault (Bool × σ))
    (state : σ) : t.any start length test state = .ok (false, state) := by
  rw [any, walk_of_isEmpty h]
  rfl

theorem gather_of_not_fits (h : t.isEmpty = false) (hq : ¬ (Span.mk start length).Fits)
    (test : α → σ → Except Fault (Bool × σ)) (firstOnly : Bool) (state : σ) (buffer : Array α) :
    t.gather start length test firstOnly state buffer =
      .error (.queryEndOverflow start length) := by
  rw [gather, walk_of_not_fits h hq]
  rfl

theorem any_of_not_fits (h : t.isEmpty = false) (hq : ¬ (Span.mk start length).Fits)
    (test : α → σ → Except Fault (Bool × σ)) (state : σ) :
    t.any start length test state = .error (.queryEndOverflow start length) := by
  rw [any, walk_of_not_fits h hq]
  rfl

end Searches

/-- The answer to this query is stopped just if the tree has values and the end of the query is no
offset. Without values the answer is `nothing`. -/
structure Guarded {β : Type} (t : IntervalTree α) (query : Span) (nothing : β)
    (answer : Except Fault β) : Prop where
  stopped_iff : (∃ fault, answer = .error fault) ↔ t.isEmpty = false ∧ ¬ query.Fits
  fault_eq : ∀ fault, answer = .error fault → fault = .queryEndOverflow query.start query.length
  of_isEmpty : t.isEmpty = true → answer = .ok nothing

variable {t : IntervalTree α} {query : Span} {start length : UInt32}

omit [Spanned α] in
theorem guarded_of {β : Type} {nothing : β} {answer : Except Fault β}
    (hempty : t.isEmpty = true → answer = .ok nothing)
    (hstops : t.isEmpty = false → ¬ query.Fits →
      answer = .error (.queryEndOverflow query.start query.length))
    (hanswers : query.Fits → ∃ found, answer = .ok found) : Guarded t query nothing answer := by
  have hstopped : ∀ fault, answer = .error fault → t.isEmpty = false ∧ ¬ query.Fits := by
    intro fault hfault
    constructor
    · by_contra hvalues
      rw [hempty (Bool.eq_true_of_not_eq_false hvalues)] at hfault
      cases hfault
    · intro hq
      obtain ⟨found, hfound⟩ := hanswers hq
      rw [hfound] at hfault
      cases hfault
  refine ⟨⟨fun ⟨fault, hfault⟩ => hstopped fault hfault, fun h => ⟨_, hstops h.1 h.2⟩⟩, ?_, hempty⟩
  intro fault hfault
  obtain ⟨hvalues, hq⟩ := hstopped fault hfault
  rw [hstops hvalues hq] at hfault
  exact (Except.error.inj hfault).symm

omit [Spanned α] in
/-- What is read off an answer is stopped when the answer is. -/
theorem Guarded.map {β γ : Type} {nothing : β} {answer : Except Fault β}
    (h : Guarded t query nothing answer) (f : β → γ) :
    Guarded t query (f nothing) (answer >>= fun found => pure (f found)) := by
  refine guarded_of ?_ ?_ ?_
  · intro hempty
    rw [h.of_isEmpty hempty]
    rfl
  · intro hvalues hq
    obtain ⟨fault, hfault⟩ := h.stopped_iff.mpr ⟨hvalues, hq⟩
    rw [hfault, h.fault_eq fault hfault]
    rfl
  · intro hq
    cases hanswer : answer with
    | error fault => exact absurd hq (h.stopped_iff.mp ⟨fault, hanswer⟩).2
    | ok found => exact ⟨f found, rfl⟩

section Answers

variable (ht : t.Sound) (m : Match) (start length : UInt32)

include ht

theorem guarded_gather (firstOnly : Bool) (buffer : Array α) :
    Guarded t ⟨start, length⟩ ⟨(), buffer, 0⟩
      (t.gather start length (m.stateless start length) firstOnly () buffer) := by
  refine guarded_of (fun h => gather_of_isEmpty h _ _ _ _)
    (fun h hq => gather_of_not_fits h hq _ _ _ _) ?_
  intro hq
  have htest := stateless_of_mem_candidates ht m hq
  cases firstOnly with
  | false => exact ⟨_, by rw [gather_all t hq, askEach_of_stateless htest]; rfl⟩
  | true => exact ⟨_, by rw [gather_first t hq, askUntil_of_stateless htest]; rfl⟩

theorem guarded_any :
    Guarded t ⟨start, length⟩ (false, ()) (t.any start length (m.stateless start length) ()) := by
  refine guarded_of (fun h => any_of_isEmpty h _ _) (fun h hq => any_of_not_fits h hq _ _) ?_
  intro hq
  have htest := stateless_of_mem_candidates ht m hq
  exact ⟨_, by rw [any_eq t hq, askUntil_of_stateless htest]; rfl⟩

theorem guarded_has : Guarded t ⟨start, length⟩ false (t.has m start length) :=
  (guarded_any ht m start length).map Prod.fst

theorem guarded_fill (buffer : Array α) :
    Guarded t ⟨start, length⟩ (0, buffer) (t.fill m start length buffer) :=
  (guarded_gather ht m start length false buffer).map fun g => (g.added, g.buffer)

theorem guarded_matching : Guarded t ⟨start, length⟩ [] (t.matching m start length) :=
  (guarded_fill ht m start length #[]).map fun found => found.2.toList

theorem guarded_first? : Guarded t ⟨start, length⟩ none (t.first? m start length) :=
  (guarded_gather ht m start length true #[]).map fun g => g.buffer.back?

end Answers

/-- Only overflows stop a tree. Insertions succeed up to the first value whose end is no offset,
which stops them. Over a tree that was made, a named query is stopped just if there are values and
its own end is no offset, which the end of a single position always is, and over the tree without
values every query finds nothing. -/
theorem stopped_only_by_overflow (values : List α) :
    Fault.additionOverflow.message = "attempt to add with overflow" ∧
    (∀ earlier v later, values = earlier ++ v :: later → (∀ w ∈ earlier, Fits w) →
      ∃ t, ofList earlier = .ok t ∧ ((∃ t', t.insert v = .ok t') ↔ Fits v) ∧
        (¬ Fits v → t.insert v = .error .additionOverflow ∧
          ofList values = .error .additionOverflow)) ∧
    ((∃ t, ofList values = .ok t) ↔ ∀ v ∈ values, Fits v) ∧
    ∀ t, ofList values = .ok t → ∀ (m : Match) (start length position : UInt32) (buffer : Array α),
      Guarded t ⟨start, length⟩ false (t.has m start length) ∧
      Guarded t ⟨start, length⟩ [] (t.matching m start length) ∧
      Guarded t ⟨start, length⟩ (0, buffer) (t.fill m start length buffer) ∧
      Guarded t ⟨start, length⟩ none (t.first? m start length) ∧
      Guarded t ⟨position, 0⟩ false (t.hasTouchingPosition position) ∧
      (Span.mk position 0).Fits := by
  refine ⟨rfl, ?_, ⟨fun ⟨t, ht⟩ => fits_of_insertAll ht, fun fits => ?_⟩, ?_⟩
  · rintro earlier v later rfl fits
    obtain ⟨t, ht, hsound⟩ := sound_ofList earlier fits
    refine ⟨t, ht, ⟨?_, ?_⟩, fun hv => ⟨insert_of_not_fits hv t, ofList_of_not_fits fits hv later⟩⟩
    · rintro ⟨t', ht'⟩
      by_contra hv
      rw [insert_of_not_fits hv] at ht'
      cases ht'
    · intro hv
      obtain ⟨t', ht', -⟩ := insert_of_sound hsound hv
      exact ⟨t', ht'⟩
  · obtain ⟨t, ht, -⟩ := sound_ofList values fits
    exact ⟨t, ht⟩
  · intro t ht m start length position buffer
    obtain ⟨t', ht', hsound⟩ := sound_ofList values (fits_of_insertAll ht)
    obtain rfl : t = t' := Except.ok.inj (ht.symm.trans ht')
    exact ⟨guarded_has hsound m start length, guarded_matching hsound m start length,
      guarded_fill hsound m start length buffer, guarded_first? hsound m start length,
      guarded_has hsound .touching position 0, position.toNat_lt⟩

/-- The empty span at the last offset has an end, and the span of one offset there has none. As a
value it stops the insertions, and as a query every search but that of the empty tree. -/
theorem stopped_only_by_overflow_at_last_offset :
    let kept := [Span.mk 3 4, Span.mk 4294967295 0]
    let last := Span.mk 4294967295 1
    (∀ v ∈ kept, Fits v) ∧ ¬ Fits last ∧
      ofList (kept ++ [last, Span.mk 0 1]) = .error .additionOverflow ∧
      (empty : IntervalTree Span).has .covering 4294967295 1 = .ok false ∧
      ∃ t, ofList kept = .ok t ∧ (∃ fault, t.has .covering 4294967295 1 = .error fault) ∧
        ¬ ∃ fault, t.hasTouchingPosition 4294967295 = .error fault := by
  intro kept last
  have fits : ∀ v ∈ kept, Fits v := by decide
  have hlast : ¬ Fits last := by decide
  have hvalues : passes (ofList kept) (fun t => t.isEmpty == false) = true := by decide +kernel
  obtain ⟨-, hstops, -, -⟩ := stopped_only_by_overflow (kept ++ [last, Span.mk 0 1])
  obtain ⟨t, ht, -, hstop⟩ := hstops kept last [Span.mk 0 1] rfl fits
  obtain ⟨-, -, -, hempty⟩ := stopped_only_by_overflow ([] : List Span)
  obtain ⟨hnone, -⟩ := hempty empty rfl .covering 4294967295 1 0 #[]
  obtain ⟨-, -, -, hqueries⟩ := stopped_only_by_overflow kept
  obtain ⟨hhas, -, -, -, hposition, hend⟩ :=
    hqueries t ht .covering 4294967295 1 4294967295 #[]
  rw [ht] at hvalues
  refine ⟨fits, hlast, (hstop hlast).2, hnone.of_isEmpty rfl, t, ht, ?_, ?_⟩
  · exact hhas.stopped_iff.mpr ⟨beq_iff_eq.mp hvalues, hlast⟩
  · exact fun h => (hposition.stopped_iff.mp h).2 hend

end IntervalTree
end GreenTree
