import GreenTree.Fault
import Mathlib.Tactic

/-!
# Walks that keep a stack

A walk takes an item from its stack, puts others in its place and changes a state. When the items on
top are done with after a known number of steps, whatever lies below them, walks over parts of a
structure compose to a walk over the whole. A walk that a fault stops within some part is stopped
over the whole, once the parts before it are done with. If it is known how many places each item and
what comes of it take at a time, then so is how deep the stack becomes.
-/

namespace GreenTree.Stack

variable {ι σ : Type}

/-- After `steps` steps the walk is done with these items and has changed its state by `effect`. -/
def Consumes (walk : ℕ → List ι → σ → Except Fault σ) (items : List ι) (steps : ℕ)
    (effect : σ → σ) : Prop :=
  ∀ fuel pending state,
    walk (steps + fuel) (items ++ pending) state = walk fuel pending (effect state)

variable {walk : ℕ → List ι → σ → Except Fault σ} {items later : List ι} {steps more : ℕ}
  {effect next : σ → σ}

theorem consumes_nil : Consumes walk [] 0 id := by
  intro fuel pending state
  rw [Nat.zero_add]
  rfl

theorem Consumes.congr (h : Consumes walk items steps effect)
    (heffect : ∀ state, effect state = next state) : Consumes walk items steps next := by
  intro fuel pending state
  rw [h, heffect]

theorem Consumes.append (h : Consumes walk items steps effect)
    (hlater : Consumes walk later more next) :
    Consumes walk (items ++ later) (steps + more) (next ∘ effect) := by
  intro fuel pending state
  rw [Nat.add_assoc, List.append_assoc, h, hlater]
  rfl

/-- One step that puts items in the place of another does with it what is done with them. -/
theorem Consumes.of_step {item : ι} {enter : σ → σ} (h : Consumes walk items steps effect)
    (hstep : ∀ fuel pending state,
      walk (fuel + 1) (item :: pending) state = walk fuel (items ++ pending) (enter state)) :
    Consumes walk [item] (steps + 1) (effect ∘ enter) := by
  intro fuel pending state
  rw [Nat.add_right_comm, List.singleton_append, hstep, h]
  rfl

/-- With steps enough for all items the walk comes to its end. -/
theorem Consumes.run (h : Consumes walk items steps effect) {fuel : ℕ} (hfuel : steps ≤ fuel)
    (hend : ∀ fuel state, walk fuel [] state = .ok state) (state : σ) :
    walk fuel items state = .ok (effect state) := by
  obtain ⟨rest, rfl⟩ := Nat.exists_eq_add_of_le hfuel
  have hrun := h rest [] state
  rw [List.append_nil] at hrun
  rw [hrun, hend]

/-- Within `steps` steps over these items the walk is stopped by a fault. -/
def Stops (walk : ℕ → List ι → σ → Except Fault σ) (items : List ι) (steps : ℕ)
    (fault : Fault) : Prop :=
  ∀ fuel pending state, walk (steps + fuel) (items ++ pending) state = .error fault

variable {fault : Fault} {item : ι}

theorem Stops.append (h : Stops walk items steps fault) (later : List ι) (more : ℕ) :
    Stops walk (items ++ later) (steps + more) fault := by
  intro fuel pending state
  rw [Nat.add_assoc, List.append_assoc, h]

/-- A walk that is done with some items may be stopped by later ones. -/
theorem Consumes.stops (h : Consumes walk items steps effect)
    (hlater : Stops walk later more fault) : Stops walk (items ++ later) (steps + more) fault := by
  intro fuel pending state
  rw [Nat.add_assoc, List.append_assoc, h, hlater]

theorem stops_of_fault
    (hstep : ∀ fuel pending state, walk (fuel + 1) (item :: pending) state = .error fault)
    (more : ℕ) : Stops walk [item] (more + 1) fault := by
  intro fuel pending state
  rw [Nat.add_right_comm, List.singleton_append, hstep]

theorem Stops.of_step {enter : σ → σ} (h : Stops walk items steps fault)
    (hstep : ∀ fuel pending state,
      walk (fuel + 1) (item :: pending) state = walk fuel (items ++ pending) (enter state)) :
    Stops walk [item] (steps + 1) fault := by
  intro fuel pending state
  rw [Nat.add_right_comm, List.singleton_append, hstep, h]

theorem Stops.run (h : Stops walk items steps fault) {fuel : ℕ} (hfuel : steps ≤ fuel)
    (state : σ) : walk fuel items state = .error fault := by
  obtain ⟨rest, rfl⟩ := Nat.exists_eq_add_of_le hfuel
  have hrun := h rest [] state
  rwa [List.append_nil] at hrun

section Depth

/-- The greatest depth that a stack reaches, if an item and what is put in its place take up to
`room` places until they are done with. -/
def peak (room : ι → ℕ) : List ι → ℕ
  | [] => 0
  | item :: rest => max (room item + rest.length) (peak room rest)

variable {room : ι → ℕ}

theorem length_le_peak (hroom : ∀ item, 1 ≤ room item) (items : List ι) :
    items.length ≤ peak room items := by
  cases items with
  | nil => exact Nat.zero_le _
  | cons item rest =>
    have hitem := hroom item
    rw [peak, List.length_cons]
    omega

theorem peak_append_le (items pending : List ι) :
    peak room (items ++ pending) ≤
      max (peak room items + pending.length) (peak room pending) := by
  induction items with
  | nil => exact le_max_right _ _
  | cons item rest ih =>
    rw [List.cons_append, peak, peak, List.length_append]
    omega

/-- Items that need no more room than the one they replace make the stack no deeper. -/
theorem peak_replace_le (h : peak room items ≤ room item) (pending : List ι) :
    peak room (items ++ pending) ≤ peak room (item :: pending) := by
  have happend : peak room (items ++ pending) ≤ _ := peak_append_le items pending
  rw [peak]
  omega

end Depth

end GreenTree.Stack
