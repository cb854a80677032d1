import GreenTree.Proofs.IntervalTree.Candidates
import GreenTree.Proofs.IntervalTree.Height
import GreenTree.Proofs.Stack

/-!
# How deep the stacks become

A walk and a traversal put the parts of a subtree on their stack in its place. With the room that
every item is given, no step raises the depth which the stack may still reach, and at the start the
height of the tree tells this depth. While parts are being pushed the stack is never deeper than
afterwards.
-/

namespace GreenTree
namespace IntervalTree

open Spanned Outcome Stack

variable {α : Type}

/-- The root takes one place, and each level below it two more: on the way down the frames of a
node's value and of its right subtree wait for its left one. -/
def Frame.room : Frame α → ℕ
  | .enter t => max 1 (2 * t.levels - 1)
  | .emit _ => 1

theorem Frame.one_le_room (frame : Frame α) : 1 ≤ frame.room := by
  cases frame with
  | enter t => exact le_max_left _ _
  | emit v => exact le_rfl

namespace Walk

/-- Where a walk is between two turns. -/
structure Stage (α σ : Type) where
  frames : List (Frame α)
  state : σ

theorem levels_pos_of_reaches {start : UInt32} {t : Subtree α} (h : reaches start t = true) :
    1 ≤ t.levels := by
  cases t with
  | empty => cases h
  | node l v r height m => exact Nat.le_add_right 1 _

/-- A subtree that is entered has at least one level. -/
theorem enterIf_cases {start : UInt32} {worth : Bool} (t : Subtree α)
    (h : worth = true → reaches start t = true) :
    enterIf worth t = [] ∨ enterIf worth t = [.enter t] ∧ 1 ≤ t.levels := by
  cases worth with
  | false => exact .inl rfl
  | true => exact .inr ⟨rfl, levels_pos_of_reaches (h rfl)⟩

variable [Spanned α] {σ : Type}

theorem peak_unfold_le (start stop : UInt32) (t : Subtree α) :
    peak Frame.room (unfold start stop t) ≤ (Frame.enter t).room := by
  cases t with
  | empty => exact Nat.zero_le _
  | node l v r h m =>
    rw [unfold, Frame.room, Subtree.levels]
    have hleft := enterIf_cases l fun hworth : reaches start l = true => hworth
    have hright := enterIf_cases r
      fun hworth : (reaches start r && (span v).start ≤ stop) = true =>
        (Bool.and_eq_true_iff.mp hworth).1
    -- While the left side is worked off, the frames of the value and of the right side wait for it.
    rcases hleft with hleft | ⟨hleft, hlevels⟩ <;> rcases hright with hright | ⟨hright, hlevels'⟩
    all_goals
      simp only [hleft, hright, List.nil_append, List.singleton_append, peak, Frame.room,
        List.length_cons, List.length_nil]
      omega

theorem peak_next?_le {start stop : UInt32} {frames rest : List (Frame α)} {emitted : Option α}
    (h : next? start stop frames = some (emitted, rest)) :
    peak Frame.room rest ≤ peak Frame.room frames := by
  cases frames with
  | nil => cases h
  | cons frame later =>
    cases frame with
    | emit v =>
      cases h
      exact le_max_right _ _
    | enter t =>
      cases h
      exact peak_replace_le (peak_unfold_le start stop t) later

/-- One turn of a walk, which ends it or leads to the next stage. -/
def turn (start stop : UInt32) (visit : α → σ → Except Fault (ForInStep σ)) (stage : Stage α σ) :
    Except Fault (ForInStep σ) ⊕ Stage α σ :=
  match next? start stop stage.frames with
  | none => .inl (pure (.yield stage.state))
  | some (none, rest) => .inr ⟨rest, stage.state⟩
  | some (some v, rest) =>
    match visit v stage.state with
    | .ok (.yield state) => .inr ⟨rest, state⟩
    | outcome => .inl outcome

variable {start stop : UInt32} {visit : α → σ → Except Fault (ForInStep σ)}

theorem turn_emit (v : α) (rest : List (Frame α)) (state : σ) :
    turn start stop visit ⟨.emit v :: rest, state⟩ =
      match visit v state with
      | .ok (.yield state') => .inr ⟨rest, state'⟩
      | outcome => .inl outcome := rfl

/-- A run is one turn after the other. -/
theorem run_eq_turn (stage : Stage α σ) :
    run start stop visit stage.frames stage.state =
      match turn start stop visit stage with
      | .inl outcome => outcome
      | .inr later => run start stop visit later.frames later.state := by
  obtain ⟨frames, state⟩ := stage
  cases frames with
  | nil => exact run_nil start stop visit state
  | cons frame rest =>
    cases frame with
    | enter t => exact run_enter start stop visit state t rest
    | emit v =>
      rw [run_emit, turn_emit]
      rcases visit v state with fault | state' | state' <;> rfl

variable {stage later : Stage α σ}

theorem next?_of_turn (h : turn start stop visit stage = .inr later) :
    ∃ emitted, next? start stop stage.frames = some (emitted, later.frames) := by
  obtain ⟨frames, state⟩ := stage
  cases frames with
  | nil => cases h
  | cons frame rest =>
    cases frame with
    | enter t =>
      cases h
      exact ⟨none, rfl⟩
    | emit v =>
      rw [turn_emit] at h
      split at h
      · cases h
        exact ⟨some v, rfl⟩
      · cases h

theorem weight_turn (h : turn start stop visit stage = .inr later) :
    weight later.frames < weight stage.frames := by
  obtain ⟨emitted, hnext⟩ := next?_of_turn h
  exact weight_next? hnext

/-- The stages of a walk from the given one on. -/
def stages (start stop : UInt32) (visit : α → σ → Except Fault (ForInStep σ)) (stage : Stage α σ) :
    List (Stage α σ) :=
  match _h : turn start stop visit stage with
  | .inl _ => [stage]
  | .inr later => stage :: stages start stop visit later
termination_by weight stage.frames
decreasing_by exact weight_turn _h

/-- The last stage of a walk is where a turn has its outcome. -/
theorem exists_last_stage (stage : Stage α σ) :
    ∃ last ∈ stages start stop visit stage,
      turn start stop visit last = .inl (run start stop visit stage.frames stage.state) := by
  fun_induction stages start stop visit stage with
  | case1 stage outcome h =>
    refine ⟨stage, List.mem_singleton_self stage, ?_⟩
    rw [run_eq_turn, h]
  | case2 stage later h ih =>
    obtain ⟨last, hlast, hturn⟩ := ih
    refine ⟨last, List.mem_cons_of_mem stage hlast, ?_⟩
    rw [hturn, run_eq_turn stage, h]

theorem peak_turn_le (h : turn start stop visit stage = .inr later) :
    peak Frame.room later.frames ≤ peak Frame.room stage.frames := by
  obtain ⟨emitted, hnext⟩ := next?_of_turn h
  exact peak_next?_le hnext

theorem peak_stages_le (stage : Stage α σ) :
    ∀ m ∈ stages start stop visit stage,
      peak Frame.room m.frames ≤ peak Frame.room stage.frames := by
  fun_induction stages start stop visit stage with
  | case1 stage outcome h =>
    intro m hm
    rw [List.mem_singleton.mp hm]
  | case2 stage later h ih =>
    intro m hm
    rcases List.mem_cons.mp hm with rfl | hm
    · exact le_rfl
    · exact (ih m hm).trans (peak_turn_le h)

theorem length_frames_le (t : Subtree α) (state : σ) :
    ∀ m ∈ stages start stop visit ⟨[.enter t], state⟩,
      m.frames.length ≤ max 1 (2 * t.levels - 1) := by
  intro m hm
  have hpeak : peak Frame.room m.frames ≤ max (max 1 (2 * t.levels - 1) + 0) 0 :=
    peak_stages_le _ m hm
  have hlength := length_le_peak Frame.one_le_room m.frames
  omega

end Walk

namespace Traversal

/-- A pending node takes a place, and its right subtree no more than one on each level. -/
def room (entry : α × Subtree α) : ℕ := 1 + entry.2.levels

/-- The traversal after `n` more values, or at its end if there are fewer. -/
def after : ℕ → Traversal α → Traversal α
  | 0, t => t
  | n + 1, t =>
    match t.next? with
    | none => t
    | some (_, t') => t'.after n

theorem take_append_toList_after (n : ℕ) (t : Traversal α) :
    t.take n ++ (t.after n).toList = t.toList := by
  induction n generalizing t with
  | zero => rfl
  | succ n ih =>
    obtain ⟨pending⟩ := t
    cases pending with
    | nil => rfl
    | cons entry rest =>
      obtain ⟨v, r⟩ := entry
      rw [toList_cons]
      exact congrArg (v :: ·) (ih ⟨pushSpine r rest⟩)

theorem peak_cons (v : α) (r : Subtree α) (rest : List (α × Subtree α)) :
    peak room ((v, r) :: rest) = max (1 + r.levels + rest.length) (peak room rest) := rfl

theorem peak_pushSpine_le (t : Subtree α) (pending : List (α × Subtree α)) :
    peak room (pushSpine t pending) ≤ max (t.levels + pending.length) (peak room pending) := by
  induction t generalizing pending with
  | empty => exact le_max_right _ _
  | node l v r h m ihl ihr =>
    have hl := ihl ((v, r) :: pending)
    rw [peak_cons, List.length_cons] at hl
    rw [pushSpine, Subtree.levels]
    omega

theorem peak_after_le (n : ℕ) (t : Traversal α) :
    peak room (t.after n).pending ≤ peak room t.pending := by
  induction n generalizing t with
  | zero => exact le_rfl
  | succ n ih =>
    obtain ⟨pending⟩ := t
    cases pending with
    | nil => exact le_rfl
    | cons entry rest =>
      obtain ⟨v, r⟩ := entry
      have hnext : peak room (pushSpine r rest) ≤ peak room ((v, r) :: rest) := by
        have hspine := peak_pushSpine_le r rest
        rw [peak_cons]
        omega
      exact (ih ⟨pushSpine r rest⟩).trans hnext

theorem length_after_start_le (n : ℕ) (t : Subtree α) :
    ((start t).after n).pending.length ≤ t.levels := by
  have hroom : ∀ entry : α × Subtree α, 1 ≤ room entry := fun entry => Nat.le_add_right 1 _
  have hlength := length_le_peak hroom ((start t).after n).pending
  have hspine : peak room (start t).pending ≤ max (t.levels + 0) 0 := peak_pushSpine_le t []
  have hafter := peak_after_le n (start t)
  omega

end Traversal

theorem root_ne_empty_of_height_pos {t : IntervalTree α} (h : 1 ≤ t.height) : t.root ≠ .empty := by
  intro hroot
  rw [height, hroot] at h
  cases h

variable [Spanned α]

/-- Over a tree made by insertions no walk, whatever its visitor does, ever has more frames left
than twice the height of the tree less one, and no traversal has more nodes pending than the height.
With no more values than there are offsets both stay within the frames that are set aside. -/
theorem stacks_bounded_by_height (values : List α) (fits : ∀ v ∈ values, Fits v) :
    ∃ t, ofList values = .ok t ∧
      (1 ≤ t.height → ∀ start length : UInt32, (Span.mk start length).Fits →
        ∀ {σ : Type} (visit : α → σ → Except Fault (ForInStep σ)) (state : σ),
          let stop := (Span.mk start length).endWord
          let stages := Walk.stages start stop visit ⟨[.enter t.root], state⟩
          (∃ last ∈ stages,
            Walk.turn start stop visit last = .inl (t.walk start length visit state)) ∧
          ∀ stage ∈ stages, stage.frames.length ≤ 2 * t.height - 1 ∧
            (values.length ≤ 2 ^ 32 → stage.frames.length ≤ Limits.walkFrames)) ∧
      ∀ n, t.take n ++ (t.traversal.after n).toList = t.toList ∧
        (t.traversal.after n).pending.length ≤ t.height ∧
        (values.length ≤ 2 ^ 32 → (t.traversal.after n).pending.length ≤ Limits.walkFrames) := by
  obtain ⟨t, ht, hsound, hsize, -⟩ := exists_sound_of_size values fits
  have hlevels := hsound.height_eq_levels
  have hsuffice (hfew : values.length ≤ 2 ^ 32) : 2 * t.height + 1 ≤ Limits.walkFrames := by
    rw [← hsize] at hfew
    exact hsound.frames_suffice hfew
  refine ⟨t, ht, ?_, ?_⟩
  · intro hpos start length hq σ visit state stop stages
    refine ⟨?_, ?_⟩
    · rw [walk_eq_run (root_ne_empty_of_height_pos hpos) hq]
      exact Walk.exists_last_stage _
    · intro stage hstage
      have hlength : stage.frames.length ≤ 2 * t.height - 1 := by
        have hframes := Walk.length_frames_le t.root state stage hstage
        omega
      refine ⟨hlength, ?_⟩
      intro hfew
      have hframes := hsuffice hfew
      omega
  · intro n
    have hlength : (t.traversal.after n).pending.length ≤ t.height := by
      rw [hlevels]
      exact Traversal.length_after_start_le n t.root
    refine ⟨Traversal.take_append_toList_after n t.traversal, hlength, ?_⟩
    intro hfew
    have hframes := hsuffice hfew
    omega

/-- Five values on three levels. The walk over all of them comes to keep five frames, and the
traversal begins with three nodes. -/
theorem stacks_bounded_by_height_reached :
    let values := [Span.mk 40 5, Span.mk 20 5, Span.mk 60 4294967235, Span.mk 10 5, Span.mk 30 5]
    let goOn : Span → Unit → Except Fault (ForInStep Unit) := fun _ _ => .ok (.yield ())
    (∀ v ∈ values, Fits v) ∧ (Span.mk 0 100).Fits ∧ values.length ≤ 2 ^ 32 ∧
      ∃ t, ofList values = .ok t ∧ t.height = 3 ∧ 1 ≤ t.height ∧
        (∃ stage ∈ Walk.stages 0 (Span.mk 0 100).endWord goOn ⟨[.enter t.root], ()⟩,
          stage.frames.length = 2 * t.height - 1 ∧ stage.frames.length ≤ 2 * t.height - 1 ∧
          stage.frames.length ≤ Limits.walkFrames) ∧
        t.traversal.pending.length = t.height ∧ t.traversal.pending.length ≤ t.height := by
  intro values goOn
  have fits : ∀ v ∈ values, Fits v := by decide
  have hq : (Span.mk 0 100).Fits := by decide
  have hfew : values.length ≤ 2 ^ 32 := by decide
  have hheight : passes (ofList values) (fun t => t.height == 3) = true := by decide +kernel
  have hpending : passes (ofList values) (fun t => t.traversal.pending.length == 3) = true := by
    decide +kernel
  have hdeep : passes (ofList values) (fun t =>
      (Walk.stages 0 (Span.mk 0 100).endWord goOn ⟨[.enter t.root], ()⟩).any
        fun stage => stage.frames.length == 5) = true := by decide +kernel
  obtain ⟨t, ht, hwalks, htraversal⟩ := stacks_bounded_by_height values fits
  rw [ht] at hheight hpending hdeep
  have hthree : t.height = 3 := beq_iff_eq.mp hheight
  have hpos : 1 ≤ t.height := by omega
  obtain ⟨-, hbound, -⟩ := htraversal 0
  obtain ⟨-, hframes⟩ := hwalks hpos 0 100 hq goOn ()
  obtain ⟨stage, hstage, hfive⟩ := List.any_eq_true.mp hdeep
  obtain ⟨hroom, hwithin⟩ := hframes stage hstage
  have hlength : stage.frames.length = 5 := beq_iff_eq.mp hfive
  refine ⟨fits, hq, hfew, t, ht, hthree, hpos, ⟨stage, hstage, ?_, hroom, hwithin hfew⟩, ?_, hbound⟩
  · rw [hlength, hthree]
  · rw [hthree]
    exact beq_iff_eq.mp hpending

end IntervalTree
end GreenTree
