import GreenTree.Fault
import Mathlib.Tactic

/-!
# Outcomes of operations

Operations run in `Except Fault`. Three equations take a sequence of operations apart.
-/

namespace GreenTree.Outcome

variable {α β : Type}

@[simp] theorem ok_bind (a : α) (f : α → Except Fault β) : (Except.ok a >>= f) = f a := rfl

@[simp] theorem pure_eq_ok (a : α) : (pure a : Except Fault α) = .ok a := rfl

theorem bind_eq_ok_iff {x : Except Fault α} {f : α → Except Fault β} {b : β} :
    x >>= f = .ok b ↔ ∃ a, x = .ok a ∧ f a = .ok b := by
  cases x with
  | error e => simp [bind, Except.bind]
  | ok a => simp

/-- Whether the operation is not stopped and its result passes the test. -/
def passes (x : Except Fault α) (test : α → Bool) : Bool :=
  match x with
  | .error _ => false
  | .ok a => test a

theorem exists_of_passes {x : Except Fault α} {test : α → Bool} (h : passes x test = true) :
    ∃ a, x = .ok a ∧ test a = true := by
  cases x with
  | error e => cases h
  | ok a => exact ⟨a, rfl, h⟩

end GreenTree.Outcome
