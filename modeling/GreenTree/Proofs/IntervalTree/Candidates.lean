import GreenTree.IntervalTree.Walk
import GreenTree.Proofs.IntervalTree.Balance

/-!
# Candidates of a query

Whatever the visitor does, a walk shows it a fixed list of values, the candidates of the query, one
by one until it is done. The candidates are values of the tree in order. They lack only values of
subtrees that end too early or start too late, so no value that touches the query is left out.
-/

namespace GreenTree
namespace IntervalTree

open Spanned Outcome

variable {α : Type} [Spanned α]

namespace Walk

/-- The values that are emitted once the subtree is entered. -/
def candidates (start stop : UInt32) : Subtree α → List α
  | .empty => []
  | .node l v r _ _ =>
    (if reaches start l then candidates start stop l else []) ++
      v :: if reaches start r && (span v).start ≤ stop then candidates start stop r else []

/-- The values that some frames emit. -/
def emitted (start stop : UInt32) : List (Frame α) → List α
  | [] => []
  | .emit v :: rest => v :: emitted start stop rest
  | .enter t :: rest => candidates start stop t ++ emitted start stop rest

theorem emitted_append (start stop : UInt32) (frames others : List (Frame α)) :
    emitted start stop (frames ++ others) =
      emitted start stop frames ++ emitted start stop others := by
  induction frames with
  | nil => rfl
  | cons frame rest ih => cases frame <;> simp [emitted, ih]

theorem emitted_enterIf (start stop : UInt32) (worth : Bool) (t : Subtree α) :
    emitted start stop (enterIf worth t) = if worth then candidates start stop t else [] := by
  cases worth <;> simp [enterIf, emitted]

theorem emitted_unfold (start stop : UInt32) (t : Subtree α) :
    emitted start stop (unfold start stop t) = candidates start stop t := by
  cases t with
  | empty => rfl
  | node l v r h m => simp only [unfold, emitted_append, emitted, emitted_enterIf, candidates]

/-- Running frames shows the visitor what the frames emit. -/
theorem run_eq_bindList {σ : Type} (start stop : UInt32)
    (visit : α → σ → Except Fault (ForInStep σ)) (frames : List (Frame α)) (state : σ) :
    run start stop visit frames state =
      (ForInStep.yield state).bindList visit (emitted start stop frames) := by
  induction hw : weight frames using Nat.strong_induction_on generalizing frames state with
  | _ w ih =>
    subst hw
    cases frames with
    | nil => exact run_nil start stop visit state
    | cons frame rest =>
      cases frame with
      | emit v =>
        rw [run_emit, emitted, ForInStep.bindList_cons, ForInStep.bind_yield]
        congr
        funext answer
        cases answer with
        | done state' => rw [ForInStep.done_bindList]
        | yield state' => exact ih _ (by simp [weight]) _ _ rfl
      | enter t =>
        have hless : weight (unfold start stop t ++ rest) < weight (.enter t :: rest) := by
          have := weight_unfold start stop t
          rw [weight_append, weight]
          omega
        rw [run_enter, ih _ hless _ _ rfl, emitted_append, emitted_unfold, emitted]

theorem candidates_sublist (start stop : UInt32) (t : Subtree α) :
    (candidates start stop t).Sublist t.toList := by
  induction t with
  | empty => exact .slnil
  | node l v r h m ihl ihr =>
    rw [candidates, Subtree.toList]
    refine List.Sublist.append ?_ (List.Sublist.cons_cons v ?_)
    · split_ifs
      · exact ihl
      · exact List.nil_sublist _
    · split_ifs
      · exact ihr
      · exact List.nil_sublist _

theorem endNat_lt_of_not_reaches {start : UInt32} {t : Subtree α} (ht : t.EndsStored)
    (h : ¬ reaches start t = true) {w : α} (hw : w ∈ t.toList) : endNat w < start.toNat := by
  cases t with
  | empty => simp [Subtree.toList] at hw
  | node l v r height m =>
    have hle := ht.le_maxEnd hw
    simp only [reaches, decide_eq_true_eq, UInt32.le_iff_toNat_le] at h
    omega

/-- A subtree that holds no passing value may be left out. -/
theorem filter_ite_candidates {start stop : UInt32} {t : Subtree α} {p : α → Bool} {worth : Bool}
    (ht : (candidates start stop t).filter p = t.toList.filter p)
    (hcut : ¬ worth = true → ∀ w ∈ t.toList, ¬ p w = true) :
    (if worth = true then candidates start stop t else []).filter p = t.toList.filter p := by
  split_ifs with hworth
  · exact ht
  · symm
    rw [List.filter_nil, List.filter_eq_nil_iff]
    exact hcut hworth

/-- A test that only values touching the query pass finds as much among the candidates as in the
whole subtree. -/
theorem filter_candidates {start stop : UInt32} {t : Subtree α} (ho : t.Ordered)
    (he : t.EndsStored) (p : α → Bool)
    (hp : ∀ v, p v = true → startNat v ≤ stop.toNat ∧ start.toNat ≤ endNat v) :
    (candidates start stop t).filter p = t.toList.filter p := by
  induction t with
  | empty => rfl
  | node l v r h m ihl ihr =>
    obtain ⟨hol, hor, -, hvr⟩ := ho
    obtain ⟨hel, her, -⟩ := he
    rw [candidates, Subtree.toList, List.filter_append, List.filter_append, List.filter_cons,
      List.filter_cons, filter_ite_candidates (ihl hol hel), filter_ite_candidates (ihr hor her)]
    · intro hworth w hw hpw
      have htouch := hp w hpw
      have hstart : startNat v ≤ startNat w := hvr w hw
      simp only [Bool.and_eq_true, decide_eq_true_eq, not_and, UInt32.le_iff_toNat_le] at hworth
      by_cases hreach : reaches start r = true
      · have hlate : ¬ startNat v ≤ stop.toNat := hworth hreach
        omega
      · have hend := endNat_lt_of_not_reaches her hreach hw
        omega
    · intro hworth w hw hpw
      have hend := endNat_lt_of_not_reaches hel hworth hw
      have htouch := hp w hpw
      omega

end Walk

/-- The values that a query visits as long as its visitor goes on. -/
def candidates (t : IntervalTree α) (query : Span) : List α :=
  Walk.candidates query.start query.endWord t.root

/-- A walk over a tree with values runs from the root. -/
theorem walk_eq_run {σ : Type} {t : IntervalTree α} (ht : t.root ≠ .empty) {start length : UInt32}
    (hq : (Span.mk start length).Fits) (visit : α → σ → Except Fault (ForInStep σ)) (state : σ) :
    t.walk start length visit state =
      Walk.run start (Span.mk start length).endWord visit [.enter t.root] state := by
  have hsum : Offset.sum? start length = some (Span.mk start length).endWord := if_pos hq
  obtain ⟨root, size⟩ := t
  cases root with
  | empty => exact absurd rfl ht
  | node l v r h m => simp only [walk, hsum]

theorem walk_eq_bindList {σ : Type} (t : IntervalTree α) {start length : UInt32}
    (hq : (Span.mk start length).Fits) (visit : α → σ → Except Fault (ForInStep σ)) (state : σ) :
    t.walk start length visit state =
      (ForInStep.yield state).bindList visit (t.candidates ⟨start, length⟩) := by
  by_cases ht : t.root = .empty
  · rw [walk, candidates, ht]
    rfl
  · rw [walk_eq_run ht hq, Walk.run_eq_bindList, Walk.emitted, Walk.emitted, List.append_nil]
    rfl

end IntervalTree
end GreenTree
