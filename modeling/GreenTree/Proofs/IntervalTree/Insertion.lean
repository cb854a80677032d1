import GreenTree.Proofs.IntervalTree.Balance

/-!
# Sequences of insertions

An insertion of a value whose end is an offset keeps the order, the heights, the largest ends and
the number of values, and so does every sequence of them.
-/

namespace GreenTree
namespace IntervalTree

open Spanned Outcome

variable {α : Type} [Spanned α]

/-- What holds of a tree between insertions: the order of the starts, the stored heights and their
balance, the stored ends, and the number of values. -/
structure Sound (t : IntervalTree α) : Prop where
  ordered : t.root.Ordered
  balanced : t.root.Balanced
  endsStored : t.root.EndsStored
  size_eq : t.size = t.root.count

theorem Sound.kept {t : IntervalTree α} (ht : t.Sound) : t.root.Kept :=
  ⟨ht.balanced, ht.endsStored⟩

theorem sound_empty : (empty : IntervalTree α).Sound :=
  ⟨trivial, trivial, trivial, rfl⟩

theorem insert_of_sound {t : IntervalTree α} {v : α} (ht : t.Sound) (hv : Fits v) :
    ∃ t', t.insert v = .ok t' ∧ t'.Sound ∧ Placed v t.root.toList t'.root.toList ∧
      t'.size = t.size + 1 ∧ (t'.height = t.height ∨ t'.height = t.height + 1) := by
  obtain ⟨root, hroot, hkept, hheight⟩ := Subtree.insert_of_fits ht.kept hv
  have hplaced := Subtree.placed_of_insert ht.ordered hroot
  have hcount : root.count = t.root.count + 1 := by
    rw [← Subtree.length_toList, ← Subtree.length_toList, hplaced.length_eq]
  refine ⟨⟨root, t.size + 1⟩, by simp [insert, hroot], ?_, hplaced, rfl, hheight⟩
  have hsize : t.size + 1 = root.count := by rw [hcount, ht.size_eq]
  exact ⟨Subtree.ordered_of_insert ht.ordered hroot, hkept.balanced, hkept.endsStored, hsize⟩

theorem insertAll_append (t : IntervalTree α) (values others : List α) :
    t.insertAll (values ++ others) = t.insertAll values >>= fun t' => t'.insertAll others := by
  induction values generalizing t with
  | nil => simp [insertAll]
  | cons v rest ih =>
    simp only [List.cons_append, insertAll]
    cases t.insert v with
    | error e => rfl
    | ok t' => exact ih t'

theorem ofList_concat (values : List α) (v : α) :
    ofList (values ++ [v]) = ofList values >>= fun t => t.insert v := by
  rw [ofList, insertAll_append, ofList]
  congr
  funext t
  cases h : t.insert v with
  | error e => simp [insertAll, h, bind, Except.bind]
  | ok t' => simp [insertAll, h]

theorem sound_ofList (values : List α) (fits : ∀ v ∈ values, Fits v) :
    ∃ t, ofList values = .ok t ∧ t.Sound := by
  induction values using List.reverseRecOn with
  | nil => exact ⟨empty, rfl, sound_empty⟩
  | append_singleton values v ih =>
    obtain ⟨t, ht, hsound⟩ := ih (fun w hw => fits w (by simp [hw]))
    obtain ⟨t', ht', hsound', -⟩ := insert_of_sound hsound (fits v (by simp))
    exact ⟨t', by rw [ofList_concat, ht, ok_bind, ht'], hsound'⟩

/-- In a sequence of insertions of values whose ends are offsets, every insertion succeeds, puts the
value in its place among the others, leaves a sound tree behind, and makes the tree at most one
higher. -/
theorem sound_after_each_insertion (values : List α) (fits : ∀ v ∈ values, Fits v)
    (earlier : List α) (v : α) (later : List α) (h : values = earlier ++ v :: later) :
    ∃ t t', ofList earlier = .ok t ∧ t.insert v = .ok t' ∧ ofList (earlier ++ [v]) = .ok t' ∧
      Placed v t.root.toList t'.root.toList ∧ t'.size = t.size + 1 ∧
      t'.Sound ∧ (t'.height = t.height ∨ t'.height = t.height + 1) := by
  subst h
  obtain ⟨t, ht, hsound⟩ := sound_ofList earlier (fun w hw => fits w (by simp [hw]))
  obtain ⟨t', ht', hsound', hplaced, hsize, hheight⟩ := insert_of_sound hsound (fits v (by simp))
  exact ⟨t, t', ht, ht', by rw [ofList_concat, ht, ok_bind, ht'], hplaced, hsize, hsound', hheight⟩

/-- The third of these insertions takes a double rotation, below an end that is the last offset. -/
theorem sound_after_double_rotation :
    (∀ v ∈ [Span.mk 5 2, Span.mk 10 4294967285, Span.mk 7 1], Fits v) ∧
      ∃ t t', ofList [Span.mk 5 2, Span.mk 10 4294967285] = .ok t ∧
        t.insert (Span.mk 7 1) = .ok t' ∧
        ofList ([Span.mk 5 2, Span.mk 10 4294967285] ++ [Span.mk 7 1]) = .ok t' ∧
        Placed (Span.mk 7 1) t.root.toList t'.root.toList ∧ t'.size = t.size + 1 ∧
        t'.Sound ∧ (t'.height = t.height ∨ t'.height = t.height + 1) :=
  have fits : ∀ v ∈ [Span.mk 5 2, Span.mk 10 4294967285, Span.mk 7 1], Fits v := by decide
  ⟨fits, sound_after_each_insertion _ fits [Span.mk 5 2, Span.mk 10 4294967285] (Span.mk 7 1) []
    rfl⟩

end IntervalTree
end GreenTree
