import GreenTree.Cache.Basic
import GreenTree.Proofs.Outcome

/-!
# Runs

Whatever keeps nodes is asked for something or has its cache called, one action after the other,
until a fault ends the run. A run is told by its steps and its last state, and what every step
preserves, told of the steps so far and the state after them, the run preserves.
-/

namespace GreenTree

/-- One step of a run: an action and the answer to it, between the states before and after it. -/
structure Step (σ ω ο : Type) where
  before : σ
  action : ω
  answer : ο
  after : σ

namespace Run

variable {σ ω ο : Type} (act : σ → ω → Except Fault (ο × σ))

/-- The steps of all actions, or of those before the first that is stopped by a fault. -/
def steps (s : σ) : List ω → List (Step σ ω ο)
  | [] => []
  | action :: rest =>
    match act s action with
    | .error _ => []
    | .ok (answer, s') => ⟨s, action, answer, s'⟩ :: steps s' rest

/-- The state after these steps. -/
def last (s : σ) : List ω → σ
  | [] => s
  | action :: rest =>
    match act s action with
    | .error _ => s
    | .ok (_, s') => last s' rest

/-- Every step is taken in a state where the rule allows its action. -/
def Obeys (rule : σ → ω → Bool) (s : σ) (actions : List ω) : Prop :=
  ∀ r ∈ steps act s actions, rule r.before r.action = true

instance (rule : σ → ω → Bool) (s : σ) (actions : List ω) :
    Decidable (Obeys act rule s actions) :=
  inferInstanceAs (Decidable (∀ r ∈ steps act s actions, rule r.before r.action = true))

variable {act} {s s' : σ} {action : ω} {answer : ο} {fault : Fault}

theorem steps_of_fault (h : act s action = .error fault) (rest : List ω) :
    steps act s (action :: rest) = [] := by
  rw [steps, h]

theorem last_of_fault (h : act s action = .error fault) (rest : List ω) :
    last act s (action :: rest) = s := by
  rw [last, h]

theorem steps_of_ok (h : act s action = .ok (answer, s')) (rest : List ω) :
    steps act s (action :: rest) = ⟨s, action, answer, s'⟩ :: steps act s' rest := by
  rw [steps, h]

theorem last_of_ok (h : act s action = .ok (answer, s')) (rest : List ω) :
    last act s (action :: rest) = last act s' rest := by
  rw [last, h]

/-- What every step preserves, told of the steps before it and the state after them, holds of all
steps and the last state. -/
theorem steps_induction (P : List (Step σ ω ο) → σ → Prop) (hs : P [] s) {actions : List ω}
    (hstep : ∀ past before action answer after,
      past ++ [⟨before, action, answer, after⟩] <+: steps act s actions →
        act before action = .ok (answer, after) → P past before →
          P (past ++ [⟨before, action, answer, after⟩]) after) :
    P (steps act s actions) (last act s actions) := by
  generalize hall : steps act s actions = all at hstep ⊢
  -- Some steps are behind, and those that are left are the steps of the actions that are left.
  have hfrom : ∀ past, past ++ steps act s actions = all → P past s →
      P all (last act s actions) := by
    clear hs hall
    induction actions generalizing s with
    | nil =>
      intro past hpast hs
      rw [steps, List.append_nil] at hpast
      exact hpast ▸ hs
    | cons action rest ih =>
      intro past hpast hs
      rcases hact : act s action with fault | ⟨answer, s'⟩
      · rw [steps_of_fault hact, List.append_nil] at hpast
        rw [last_of_fault hact]
        exact hpast ▸ hs
      · rw [steps_of_ok hact, List.append_cons] at hpast
        rw [last_of_ok hact]
        exact ih _ hpast (hstep past s action answer s' ⟨_, hpast⟩ hact hs)
  exact hfrom [] hall hs

/-- After a part of the actions a run goes on with the rest, unless it was stopped before. -/
theorem run_append (act : σ → ω → Except Fault (ο × σ)) (s : σ) (part rest : List ω) :
    ∃ left, (left = rest ∨ left = []) ∧
      steps act s (part ++ rest) = steps act s part ++ steps act (last act s part) left ∧
        last act s (part ++ rest) = last act (last act s part) left := by
  induction part generalizing s with
  | nil => exact ⟨rest, .inl rfl, rfl, rfl⟩
  | cons action part ih =>
    rw [List.cons_append]
    rcases hact : act s action with fault | ⟨answer, s'⟩
    · rw [steps_of_fault hact, steps_of_fault hact, last_of_fault hact, last_of_fault hact]
      exact ⟨[], .inr rfl, rfl, rfl⟩
    · rw [steps_of_ok hact, steps_of_ok hact, last_of_ok hact, last_of_ok hact]
      obtain ⟨left, hleft, hsteps, hlast⟩ := ih s'
      exact ⟨left, hleft, by rw [hsteps, List.cons_append], hlast⟩

theorem steps_isPrefix_append (s : σ) (part rest : List ω) :
    steps act s part <+: steps act s (part ++ rest) := by
  obtain ⟨left, -, hsteps, -⟩ := run_append act s part rest
  rw [hsteps]
  exact List.prefix_append _ _

theorem exists_last_of_isPrefix {part actions : List ω} (h : part <+: actions) (s : σ) :
    ∃ left, (∀ action ∈ left, action ∈ actions) ∧
      last act s actions = last act (last act s part) left := by
  obtain ⟨rest, rfl⟩ := h
  obtain ⟨left, rfl | rfl, -, hlast⟩ := run_append act s part rest
  · exact ⟨left, fun _ h => List.mem_append_right part h, hlast⟩
  · exact ⟨[], by simp, hlast⟩

section Actions

variable (act) (s : σ) (actions : List ω)

/-- A run takes all actions, or it takes those before one that is stopped in its last state. -/
theorem takes_all_or_stops :
    (steps act s actions).map Step.action = actions ∨ ∃ action fault,
      (steps act s actions).map Step.action ++ [action] <+: actions ∧
        act (last act s actions) action = .error fault := by
  induction actions generalizing s with
  | nil => exact .inl rfl
  | cons action rest ih =>
    rcases hact : act s action with fault | ⟨answer, s'⟩
    · rw [steps_of_fault hact, last_of_fault hact]
      exact .inr ⟨action, fault, by simp, hact⟩
    · rw [steps_of_ok hact, last_of_ok hact, List.map_cons]
      obtain hall | ⟨stopping, fault, htaken, hstop⟩ := ih s'
      · exact .inl (congrArg (action :: ·) hall)
      · exact .inr ⟨stopping, fault, List.cons_prefix_cons.mpr ⟨rfl, htaken⟩, hstop⟩

theorem actions_isPrefix : (steps act s actions).map Step.action <+: actions := by
  obtain hall | ⟨action, fault, htaken, -⟩ := takes_all_or_stops act s actions
  · rw [hall]
  · exact (List.prefix_append _ _).trans htaken

theorem length_steps_le : (steps act s actions).length ≤ actions.length := by
  simpa using (actions_isPrefix act s actions).length_le

end Actions

theorem action_mem_of_mem_steps {actions : List ω} {r : Step σ ω ο} (h : r ∈ steps act s actions) :
    r.action ∈ actions :=
  (actions_isPrefix act s actions).subset (List.mem_map_of_mem h)

/-- What every allowed action preserves, an obedient run preserves. -/
theorem last_induction (rule : σ → ω → Bool) (P : σ → Prop)
    (hstep : ∀ s action answer s', P s → rule s action = true →
      act s action = .ok (answer, s') → P s')
    {actions : List ω} (hobeys : Obeys act rule s actions) (hs : P s) : P (last act s actions) :=
  steps_induction (fun _ s => P s) hs fun _ s action answer s' hsteps h hbefore =>
    hstep s action answer s' hbefore (hobeys ⟨s, action, answer, s'⟩ (hsteps.subset (by simp))) h

/-- What each of the actions preserves, a run of them preserves. -/
theorem last_preserves (P : σ → Prop) {actions : List ω}
    (hstep : ∀ s, ∀ action ∈ actions, ∀ answer s', P s → act s action = .ok (answer, s') → P s')
    (hs : P s) : P (last act s actions) :=
  steps_induction (fun _ s => P s) hs fun _ s action answer s' hsteps h hbefore =>
    have hmem := action_mem_of_mem_steps (r := ⟨s, action, answer, s'⟩) (hsteps.subset (by simp))
    hstep s action hmem answer s' hbefore h

/-- Where every step keeps an invariant and leads to a later state, every step of a run starts where
the invariant holds, and the last state is later than all others. -/
theorem steps_between {I : σ → Prop} {R : σ → σ → Prop} (hrefl : ∀ s, R s s)
    (htrans : ∀ s t u, R s t → R t u → R s u)
    (hstep : ∀ s action answer s', I s → act s action = .ok (answer, s') → I s' ∧ R s s')
    (hs : I s) (actions : List ω) :
    I (last act s actions) ∧ R s (last act s actions) ∧ ∀ r ∈ steps act s actions,
      I r.before ∧ act r.before r.action = .ok (r.answer, r.after) ∧
        R r.after (last act s actions) := by
  refine steps_induction (fun past t => I t ∧ R s t ∧ ∀ r ∈ past, I r.before ∧
    act r.before r.action = .ok (r.answer, r.after) ∧ R r.after t) ⟨hs, hrefl s, by simp⟩ ?_
  rintro past t action answer t' - hact ⟨ht, hlater, hpast⟩
  obtain ⟨ht', hnext⟩ := hstep t action answer t' ht hact
  refine ⟨ht', htrans s t t' hlater hnext, ?_⟩
  rw [List.forall_mem_append, List.forall_mem_singleton]
  refine ⟨fun r hr => ?_, ht, hact, hrefl t'⟩
  obtain ⟨hbefore, hr, hafter⟩ := hpast r hr
  exact ⟨hbefore, hr, htrans r.after t t' hafter hnext⟩

/-- Actions that come to the same are taken in the same steps. -/
theorem run_map {f : ω → ω} (hf : ∀ s action, act s (f action) = act s action) (s : σ)
    (actions : List ω) :
    steps act s (actions.map f) =
        (steps act s actions).map (fun r => { r with action := f r.action }) ∧
      last act s (actions.map f) = last act s actions := by
  induction actions generalizing s with
  | nil => exact ⟨rfl, rfl⟩
  | cons action rest ih =>
    have hsame := hf s action
    rw [List.map_cons]
    rcases hact : act s action with fault | ⟨answer, s'⟩
    · rw [hact] at hsame
      rw [steps_of_fault hsame, steps_of_fault hact, last_of_fault hsame, last_of_fault hact]
      exact ⟨rfl, rfl⟩
    · rw [hact] at hsame
      rw [steps_of_ok hsame, steps_of_ok hact, last_of_ok hsame, last_of_ok hact, List.map_cons]
      exact ⟨congrArg _ (ih s').1, (ih s').2⟩

end Run

/-- What is done to a keeper of nodes: it is asked for something, or its cache is called. -/
inductive Action (ρ κ : Type) where
  | request (asked : ρ)
  | onCache (call : κ)

namespace Action

variable {σ ρ κ : Type}

/-- What an action does, where it is told how requests are answered and how calls are served. -/
def perform (answer : σ → ρ → Except Fault (NodeId × σ)) (serve : σ → κ → σ) (s : σ) :
    Action ρ κ → Except Fault (Option NodeId × σ)
  | request asked => do
    let (id, s') ← answer s asked
    pure (some id, s')
  | onCache call => pure (none, serve s call)

/-- The requests among the actions. -/
def requests (actions : List (Action ρ κ)) : List ρ :=
  actions.filterMap fun
    | request asked => some asked
    | onCache _ => none

theorem requests_append (actions more : List (Action ρ κ)) :
    requests (actions ++ more) = requests actions ++ requests more :=
  List.filterMap_append

theorem requests_isPrefix {part actions : List (Action ρ κ)} (h : part <+: actions) :
    requests part <+: requests actions :=
  h.filterMap _

variable {answer : σ → ρ → Except Fault (NodeId × σ)} {serve : σ → κ → σ} {s s' : σ}
  {action : Action ρ κ} {asked : ρ} {id : NodeId} {id? : Option NodeId} {fault : Fault}

/-- An action is a request that is answered, or a call that is served. -/
theorem perform_cases (h : perform answer serve s action = .ok (id?, s')) :
    (∃ asked id, action = .request asked ∧ id? = some id ∧ answer s asked = .ok (id, s')) ∨
      ∃ call, action = .onCache call ∧ id? = none ∧ s' = serve s call := by
  cases action with
  | request asked =>
    rw [perform, Outcome.bind_eq_ok_iff] at h
    obtain ⟨⟨id, t⟩, hanswer, h⟩ := h
    cases h
    exact .inl ⟨asked, id, rfl, rfl, hanswer⟩
  | onCache call =>
    cases h
    exact .inr ⟨call, rfl, rfl, rfl⟩

theorem perform_of_answer (h : answer s asked = .ok (id, s')) :
    perform answer serve s (.request asked) = .ok (some id, s') := by
  rw [perform, h]
  rfl

/-- Only a request can be stopped. -/
theorem exists_request_of_fault (h : perform answer serve s action = .error fault) :
    ∃ asked, action = .request asked ∧ answer s asked = .error fault := by
  cases action with
  | request asked =>
    refine ⟨asked, rfl, ?_⟩
    rcases hanswer : answer s asked with fault' | ⟨id, s'⟩
    · rw [perform, hanswer] at h
      cases h
      rfl
    · rw [perform_of_answer hanswer] at h
      cases h
  | onCache call => cases h

end Action

namespace Cache

/-- A call of a cache. A probe may be made with any arena, a node is offered out of the one in
use. -/
inductive Call where
  | probe (arena : Arena) (key : NodeKey)
  | offer (id : NodeId) (hash : UInt32)
  | clear

namespace Call

def isProbe : Call → Bool
  | probe _ _ => true
  | offer _ _ | clear => false

def isOffer : Call → Bool
  | offer _ _ => true
  | probe _ _ | clear => false

end Call

/-- The cache after a call, where `arena` is the one in use. -/
def serve (c : Cache) (arena : Arena) : Call → Cache
  | .probe other key => (c.probe other key).2
  | .offer id hash => (c.offer arena id hash).2
  | .clear => c.clear

end Cache
end GreenTree
