import GreenTree.IntervalTree.Traversal
import GreenTree.Proofs.IntervalTree.Insertion

/-!
# Iteration in stable order

The pending nodes of a traversal stand for the values still to come, each node for its own value and
all of its right subtree. Hence a traversal yields the values of a tree in order, and over a tree
made by insertions this is the one list that is sorted by start and keeps values of equal start in
the order of their insertion.
-/

namespace GreenTree
namespace IntervalTree

open Spanned Outcome

namespace Traversal

variable {α : Type}

theorem toList_pushSpine (t : Subtree α) (pending : List (α × Subtree α)) :
    toList ⟨pushSpine t pending⟩ = t.toList ++ toList ⟨pending⟩ := by
  induction t generalizing pending with
  | empty => rfl
  | node l v r h m ihl ihr => simp [pushSpine, Subtree.toList, ihl, ihr, toList_cons]

theorem take_eq (n : ℕ) (t : Traversal α) : t.take n = t.toList.take n := by
  induction n generalizing t with
  | zero => rfl
  | succ n ih =>
    obtain ⟨pending⟩ := t
    cases pending with
    | nil => rw [toList_nil]; rfl
    | cons p rest =>
      obtain ⟨v, r⟩ := p
      rw [toList_cons, List.take_succ_cons, ← ih]
      rfl

end Traversal

variable {α : Type}

theorem toList_eq (t : IntervalTree α) : t.toList = t.root.toList := by
  change Traversal.toList ⟨Traversal.pushSpine t.root []⟩ = _
  rw [Traversal.toList_pushSpine, Traversal.toList_nil, List.append_nil]

theorem take_eq (t : IntervalTree α) (n : ℕ) : t.take n = t.toList.take n :=
  Traversal.take_eq n _

variable [Spanned α]

/-- Whether `v` starts no later than `w`. -/
def startsBy (v w : α) : Bool := startNat v ≤ startNat w

/-- The list `sorted` has the values of `values` in order, with the values of each start in the
order they have in `values`. -/
structure StablySorted (values sorted : List α) : Prop where
  inOrder : InOrder sorted
  ties : ∀ start, (sorted.filter fun v => startNat v = start) =
    values.filter fun v => startNat v = start

theorem head_le_head {v w : α} {rest rest' : List α} (hv : InOrder (v :: rest))
    (hties : ∀ start, ((v :: rest).filter fun u => startNat u = start) =
      (w :: rest').filter fun u => startNat u = start) : startNat v ≤ startNat w := by
  have hmem : w ∈ (v :: rest).filter fun u => startNat u = startNat w := by
    rw [hties]
    simp
  rcases List.mem_cons.mp (List.mem_of_mem_filter hmem) with rfl | hw
  · exact le_rfl
  · exact (List.pairwise_cons.mp hv).1 w hw

theorem eq_of_ties {sorted sorted' : List α} (h : InOrder sorted) (h' : InOrder sorted')
    (hties : ∀ start, (sorted.filter fun v => startNat v = start) =
      sorted'.filter fun v => startNat v = start) : sorted = sorted' := by
  induction sorted generalizing sorted' with
  | nil =>
    cases sorted' with
    | nil => rfl
    | cons w rest' => simpa using hties (startNat w)
  | cons v rest ih =>
    cases sorted' with
    | nil => simpa using hties (startNat v)
    | cons w rest' =>
      -- Both heads have the least start, so they lead the values of one and the same start.
      have heq : startNat v = startNat w :=
        le_antisymm (head_le_head h hties) (head_le_head h' fun start => (hties start).symm)
      have hhead := hties (startNat v)
      simp only [List.filter_cons, heq, decide_true, ↓reduceIte, List.cons.injEq] at hhead
      obtain ⟨rfl, -⟩ := hhead
      rw [ih (List.pairwise_cons.mp h).2 (List.pairwise_cons.mp h').2 ?_]
      intro start
      have hall := hties start
      by_cases hs : startNat v = start <;> simpa [List.filter_cons, hs] using hall

theorem StablySorted.unique {values sorted sorted' : List α} (h : StablySorted values sorted)
    (h' : StablySorted values sorted') : sorted = sorted' := by
  apply eq_of_ties h.inOrder h'.inOrder
  intro start
  rw [h.ties, h'.ties]

theorem startsBy_trans (u v w : α) (huv : startsBy u v = true) (hvw : startsBy v w = true) :
    startsBy u w = true := by
  simp only [startsBy, decide_eq_true_eq] at *
  omega

theorem startsBy_total (v w : α) : (startsBy v w || startsBy w v) = true := by
  simp only [startsBy, Bool.or_eq_true, decide_eq_true_eq]
  omega

theorem stablySorted_mergeSort (values : List α) :
    StablySorted values (values.mergeSort startsBy) := by
  constructor
  · have hsorted := List.pairwise_mergeSort startsBy_trans startsBy_total values
    exact hsorted.imp fun h => of_decide_eq_true h
  · intro start
    have hpairwise : (values.filter fun v => startNat v = start).Pairwise
        (fun v w => startsBy v w = true) := by
      apply List.pairwise_of_forall_mem_list
      intro v hv w hw
      simp only [List.mem_filter, decide_eq_true_eq] at hv hw
      simp [startsBy, hv.2, hw.2]
    have hsub := (List.sublist_mergeSort startsBy_trans startsBy_total hpairwise
      List.filter_sublist).filter fun v => startNat v = start
    simp only [List.filter_filter, Bool.and_self] at hsub
    have hlength := ((List.mergeSort_perm values startsBy).filter
      fun v => startNat v = start).length_eq
    exact (hsub.eq_of_length hlength.symm).symm

theorem StablySorted.perm {values sorted : List α} (h : StablySorted values sorted) :
    sorted.Perm values := by
  rw [h.unique (stablySorted_mergeSort values)]
  exact List.mergeSort_perm values startsBy

theorem stablySorted_concat {values sorted sorted' : List α} {v : α}
    (h : StablySorted values sorted) (hv : Placed v sorted sorted') :
    StablySorted (values ++ [v]) sorted' := by
  refine ⟨hv.inOrder h.inOrder, ?_⟩
  intro start
  obtain ⟨early, late, rfl, rfl, -, hlate⟩ := hv
  rw [List.filter_append values, ← h.ties, List.filter_append, List.filter_append, List.filter_cons]
  by_cases hs : startNat v = start
  · have hnone : (late.filter fun w => startNat w = start) = [] := by
      rw [List.filter_eq_nil_iff]
      intro w hw
      have := hlate w hw
      simp only [decide_eq_true_eq]
      omega
    simp [hs, hnone]
  · simp [hs]

theorem stablySorted_ofList (values : List α) (fits : ∀ v ∈ values, Fits v) :
    ∃ t, ofList values = .ok t ∧ t.Sound ∧ StablySorted values t.root.toList := by
  induction values using List.reverseRecOn with
  | nil => exact ⟨empty, rfl, sound_empty, List.Pairwise.nil, fun _ => rfl⟩
  | append_singleton values v ih =>
    obtain ⟨t, ht, hsound, hsorted⟩ := ih (fun w hw => fits w (by simp [hw]))
    obtain ⟨t', ht', hsound', hplaced, -⟩ := insert_of_sound hsound (fits v (by simp))
    refine ⟨t', ?_, hsound', stablySorted_concat hsorted hplaced⟩
    rw [ofList_concat, ht, ok_bind, ht']

/-- A tree made by insertions yields the stable sort of its values by start, and the first values it
yields are the first of that list. -/
theorem iteration_stably_sorts (values : List α) (fits : ∀ v ∈ values, Fits v) :
    ∃ t, ofList values = .ok t ∧ t.toList = values.mergeSort startsBy ∧
      t.toList.Perm values ∧ StablySorted values t.toList ∧
      ∀ n, t.take n = (values.mergeSort startsBy).take n := by
  obtain ⟨t, ht, -, hsorted⟩ := stablySorted_ofList values fits
  rw [← toList_eq] at hsorted
  have hsort : t.toList = values.mergeSort startsBy :=
    hsorted.unique (stablySorted_mergeSort values)
  refine ⟨t, ht, hsort, hsorted.perm, hsorted, ?_⟩
  intro n
  rw [take_eq, hsort]

/-- Three values start at one offset, and the tree of the first three is rotated. -/
theorem iteration_stably_sorts_ties :
    let values := [(Span.mk 3 0, 0), (Span.mk 3 5, 1), (Span.mk 3 4294967292, 2), (Span.mk 1 2, 3)]
    (∀ v ∈ values, Fits v) ∧
      ∃ t, ofList values = .ok t ∧
        t.toList = [(Span.mk 1 2, 3), (Span.mk 3 0, 0), (Span.mk 3 5, 1),
          (Span.mk 3 4294967292, 2)] ∧
        t.take 2 = [(Span.mk 1 2, 3), (Span.mk 3 0, 0)] := by
  intro values
  have fits : ∀ v ∈ values, Fits v := by decide
  obtain ⟨t, ht, hsort, -, -, htake⟩ := iteration_stably_sorts values fits
  have hlist : (ofList values).map toList = .ok [(Span.mk 1 2, 3), (Span.mk 3 0, 0),
      (Span.mk 3 5, 1), (Span.mk 3 4294967292, 2)] := by decide +kernel
  rw [ht] at hlist
  have hlist' := Except.ok.inj hlist
  refine ⟨fits, t, ht, hlist', ?_⟩
  rw [htake, ← hsort, hlist']
  rfl

end IntervalTree
end GreenTree
