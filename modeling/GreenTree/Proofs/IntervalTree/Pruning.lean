import GreenTree.Proofs.IntervalTree.Queries

/-!
# Few visits

A walk enters a subtree only if some value in it ends late enough. Where all values of the subtree
also start early enough, such a value touches the query, so every visited node has a touching value
below it or is one. The other visited nodes lie on one path: as soon as a walk goes to both sides of
a node, everything to the left starts early enough. Hence a walk visits at most the nodes of this
path and, for each value that touches the query, the nodes above it.
-/

namespace GreenTree
namespace IntervalTree

open Spanned Outcome

variable {α σ : Type}

/-- The visitor, which also counts the values it is shown. -/
def counting (visit : α → σ → Except Fault (ForInStep σ)) (v : α) (seen : ℕ × σ) :
    Except Fault (ForInStep (ℕ × σ)) := do
  match ← visit v seen.2 with
  | .done state => pure (.done (seen.1 + 1, state))
  | .yield state => pure (.yield (seen.1 + 1, state))

theorem count_le_of_bindList {visit : α → σ → Except Fault (ForInStep σ)} {values : List α}
    {n : ℕ} {state : σ} {outcome : ForInStep (ℕ × σ)}
    (h : (ForInStep.yield (n, state)).bindList (counting visit) values = .ok outcome) :
    outcome.value.1 ≤ n + values.length := by
  induction values generalizing n state with
  | nil =>
    cases h
    exact le_rfl
  | cons v rest ih =>
    rw [ForInStep.bindList_cons, ForInStep.bind_yield] at h
    obtain ⟨answer, hanswer, h⟩ := bind_eq_ok_iff.mp h
    obtain ⟨seen, -, hseen⟩ := bind_eq_ok_iff.mp hanswer
    rw [List.length_cons]
    cases seen with
    | done state' =>
      cases hseen
      rw [ForInStep.done_bindList] at h
      cases h
      change n + 1 ≤ _
      omega
    | yield state' =>
      cases hseen
      have hrest := ih h
      omega

variable [Spanned α]

namespace Walk

variable {start stop : UInt32} {t : Subtree α}

/-- The number of values of a subtree that touch the offsets from `start` to `stop`. -/
def touching (start stop : UInt32) (t : Subtree α) : ℕ :=
  t.toList.countP fun v => start.toNat ≤ endNat v ∧ startNat v ≤ stop.toNat

theorem touching_node (start stop : UInt32) (l r : Subtree α) (v : α) (h : ℕ) (m : UInt32) :
    touching start stop l + touching start stop r ≤ touching start stop (.node l v r h m) := by
  rw [touching, touching, touching, Subtree.toList, List.countP_append, List.countP_cons]
  omega

/-- A subtree that is worth entering has a touching value, if all its values start early enough. -/
theorem touching_pos (he : t.EndsStored) (hreach : reaches start t = true)
    (hearly : ∀ w ∈ t.toList, startNat w ≤ stop.toNat) : 0 < touching start stop t := by
  cases t with
  | empty => cases hreach
  | node l v r h m =>
    obtain ⟨-, -, ⟨w, hw, hend⟩, -⟩ := he
    simp only [reaches, decide_eq_true_eq, UInt32.le_iff_toNat_le, ← hend] at hreach
    exact List.countP_pos_iff.mpr ⟨w, hw, decide_eq_true ⟨hreach, hearly w hw⟩⟩

theorem length_ite_candidates {worth : Bool} {bound : ℕ}
    (h : worth = true → (candidates start stop t).length ≤ bound) :
    (if worth then candidates start stop t else []).length ≤ bound := by
  split_ifs with hworth
  · exact h hworth
  · exact Nat.zero_le _

/-- What is visited on both sides of a node, and the node itself. -/
theorem add_succ_le_mul_height {left right leftWeight rightWeight weight leftHeight rightHeight : ℕ}
    (hleft : left ≤ leftWeight * leftHeight) (hright : right ≤ rightWeight * rightHeight)
    (hsum : leftWeight + rightWeight ≤ weight) (hpos : 0 < weight) :
    left + (right + 1) ≤ weight * (1 + max leftHeight rightHeight) :=
  calc left + (right + 1)
      ≤ leftWeight * max leftHeight rightHeight + (rightWeight * max leftHeight rightHeight + 1) :=
        Nat.add_le_add (hleft.trans (Nat.mul_le_mul_left _ (le_max_left _ _)))
          (Nat.succ_le_succ (hright.trans (Nat.mul_le_mul_left _ (le_max_right _ _))))
    _ = (leftWeight + rightWeight) * max leftHeight rightHeight + 1 := by ring
    _ ≤ weight * max leftHeight rightHeight + weight :=
        Nat.add_le_add (Nat.mul_le_mul_right _ hsum) hpos
    _ = weight * (1 + max leftHeight rightHeight) := by ring

/-- With all values starting early enough, every visited node is above a touching value. -/
theorem length_candidates_of_early (he : t.EndsStored) (hb : t.Balanced)
    (hreach : reaches start t = true) (hearly : ∀ w ∈ t.toList, startNat w ≤ stop.toNat) :
    (candidates start stop t).length ≤ touching start stop t * t.height := by
  induction t with
  | empty => cases hreach
  | node l v r h m ihl ihr =>
    have hpos := touching_pos he hreach hearly
    obtain ⟨hel, her, -⟩ := he
    obtain ⟨hbl, hbr, rfl, -⟩ := hb
    rw [candidates, List.length_append, List.length_cons, Subtree.height_node]
    refine add_succ_le_mul_height (length_ite_candidates ?_) (length_ite_candidates ?_)
      (touching_node start stop l r v _ m) hpos
    · intro hworth
      exact ihl hel hbl hworth fun w hw => hearly w (by simp [Subtree.toList, hw])
    · intro hworth
      rw [Bool.and_eq_true] at hworth
      exact ihr her hbr hworth.1 fun w hw => hearly w (by simp [Subtree.toList, hw])

/-- In any tree there may also be one path of nodes without a touching value below them. -/
theorem length_candidates_le (ho : t.Ordered) (he : t.EndsStored) (hb : t.Balanced) :
    (candidates start stop t).length ≤ (touching start stop t + 1) * t.height := by
  induction t with
  | empty => exact Nat.zero_le _
  | node l v r h m ihl ihr =>
    obtain ⟨hol, hor, hlv, -⟩ := ho
    obtain ⟨hel, her, -⟩ := he
    obtain ⟨hbl, hbr, rfl, -⟩ := hb
    have hsum := touching_node start stop l r v (1 + max l.height r.height) m
    rw [candidates, List.length_append, List.length_cons, Subtree.height_node]
    by_cases hworth : reaches start l = true
    · by_cases hstart : (span v).start ≤ stop
      · -- Both sides may be entered, and nothing to the left starts too late.
        have hearly : ∀ w ∈ l.toList, startNat w ≤ stop.toNat := fun w hw =>
          (hlv w hw).trans (UInt32.le_iff_toNat_le.mp hstart)
        exact add_succ_le_mul_height
          (length_ite_candidates fun _ => length_candidates_of_early hel hbl hworth hearly)
          (length_ite_candidates fun _ => ihr hor her hbr) (by omega) (Nat.succ_pos _)
      · have hright : (if reaches start r && (span v).start ≤ stop then candidates start stop r
            else []).length ≤ 0 * r.height := by
          simp [hstart]
        exact add_succ_le_mul_height (length_ite_candidates fun _ => ihl hol hel hbl) hright
          (by omega) (Nat.succ_pos _)
    · have hleft : (if reaches start l then candidates start stop l else []).length ≤
          0 * l.height := by
        simp [hworth]
      exact add_succ_le_mul_height hleft (length_ite_candidates fun _ => ihr hor her hbr)
        (by omega) (Nat.succ_pos _)

end Walk

/-- A walk visits few values beside those that touch its query: if `k` values touch it, whatever
the visitor does, it is shown no more values than `k + 1` times the height of the tree. -/
theorem walks_visit_few_values (values : List α) (fits : ∀ v ∈ values, Fits v) :
    ∃ t, ofList values = .ok t ∧
      ∀ start length : UInt32, (Span.mk start length).Fits → ∃ shown : List α,
        let bound := ((t.allMatching .touching ⟨start, length⟩).length + 1) * t.height
        shown.length ≤ bound ∧
        ∀ {σ : Type} (visit : α → σ → Except Fault (ForInStep σ)) (state : σ),
          t.walk start length visit state = (ForInStep.yield state).bindList visit shown ∧
          ∀ outcome, t.walk start length (counting visit) (0, state) = .ok outcome →
            outcome.value.1 ≤ bound := by
  obtain ⟨t, ht, hsound⟩ := sound_ofList values fits
  refine ⟨t, ht, ?_⟩
  intro start length hq
  refine ⟨t.candidates ⟨start, length⟩, ?_⟩
  intro bound
  have hfew : (t.candidates ⟨start, length⟩).length ≤ bound := by
    have hle : (t.candidates ⟨start, length⟩).length ≤ _ :=
      Walk.length_candidates_le hsound.ordered hsound.endsStored hsound.balanced
    rw [Walk.touching, Span.toNat_endWord hq, List.countP_eq_length_filter, ← toList_eq] at hle
    exact hle
  refine ⟨hfew, ?_⟩
  intro σ visit state
  refine ⟨t.walk_eq_bindList hq visit state, ?_⟩
  intro outcome h
  rw [t.walk_eq_bindList hq] at h
  have hcount := count_le_of_bindList h
  rw [Nat.zero_add] at hcount
  exact hcount.trans hfew

/-- No value touches the query, which ends before all of them. The walk goes down the left side of
a tree of height three and reaches the bound. -/
theorem walks_visit_few_values_on_left_side :
    let values := [Span.mk 40 5, Span.mk 30 5, Span.mk 20 5, Span.mk 10 5]
    let goOn : Span → Unit → Except Fault (ForInStep Unit) := fun _ _ => .ok (.yield ())
    (∀ v ∈ values, Fits v) ∧ (Span.mk 0 1).Fits ∧ ∃ t, ofList values = .ok t ∧
      t.allMatching .touching ⟨0, 1⟩ = [] ∧ t.height = 3 ∧
      ∃ outcome, t.walk 0 1 (counting goOn) (0, ()) = .ok outcome ∧ outcome.value.1 = 3 ∧
        outcome.value.1 ≤ ((t.allMatching .touching ⟨0, 1⟩).length + 1) * t.height := by
  intro values goOn
  have fits : ∀ v ∈ values, Fits v := by decide
  have hq : (Span.mk 0 1).Fits := by decide
  have hmatching :
      passes (ofList values) (fun t => t.allMatching .touching ⟨0, 1⟩ == []) = true := by
    decide +kernel
  have hheight : passes (ofList values) (fun t => t.height == 3) = true := by decide +kernel
  have hwalk : passes (ofList values >>= fun t => t.walk 0 1 (counting goOn) (0, ()))
      (fun outcome => outcome.value.1 == 3) = true := by decide +kernel
  obtain ⟨t, ht, hqueries⟩ := walks_visit_few_values values fits
  obtain ⟨shown, -, hwalks⟩ := hqueries 0 1 hq
  rw [ht] at hmatching hheight hwalk
  obtain ⟨outcome, houtcome, hcount⟩ := exists_of_passes hwalk
  exact ⟨fits, hq, t, ht, beq_iff_eq.mp hmatching, beq_iff_eq.mp hheight, outcome, houtcome,
    beq_iff_eq.mp hcount, (hwalks goOn ()).2 outcome houtcome⟩

end IntervalTree
end GreenTree
