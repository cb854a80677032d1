import GreenTree.IntervalTree.Basic

/-!
# Pruned walks

A walk visits, in order, the values that may touch a query. It keeps a stack of frames: a subtree
to enter, or a value to emit once everything before it is done. Subtrees that cannot reach the
query are never entered.
-/

namespace GreenTree.IntervalTree

variable {α : Type}

/-- What a walk has left to do. -/
inductive Frame (α : Type) where
  | enter (subtree : Subtree α)
  | emit (value : α)

namespace Walk

/-- Whether some span of the subtree reaches `start`. -/
def reaches (start : UInt32) : Subtree α → Bool
  | .empty => false
  | .node _ _ _ _ m => start ≤ m

/-- Frames for a subtree that is worth entering. -/
def enterIf (worth : Bool) (t : Subtree α) : List (Frame α) :=
  if worth then [.enter t] else []

variable [Spanned α]

/-- The frames that entering a subtree leaves: what is left of its value, the value, what is right
of it. Everything to the right starts no earlier than the value. -/
def unfold (start stop : UInt32) : Subtree α → List (Frame α)
  | .empty => []
  | .node l v r _ _ =>
    enterIf (reaches start l) l ++
      .emit v :: enterIf (reaches start r && (Spanned.span v).start ≤ stop) r

/-- One step: the value emitted, if any, and the frames after it. -/
def next? (start stop : UInt32) : List (Frame α) → Option (Option α × List (Frame α))
  | [] => none
  | .emit v :: rest => some (some v, rest)
  | .enter t :: rest => some (none, unfold start stop t ++ rest)

/-- Bounds the number of steps that some frames take. -/
def weight : List (Frame α) → Nat
  | [] => 0
  | .emit _ :: rest => 1 + weight rest
  | .enter t :: rest => 3 * t.count + 1 + weight rest

omit [Spanned α] in
theorem weight_append (xs ys : List (Frame α)) : weight (xs ++ ys) = weight xs + weight ys := by
  induction xs with
  | nil => simp [weight]
  | cons x xs ih => cases x <;> simp [weight, ih] <;> omega

omit [Spanned α] in
theorem weight_enterIf (worth : Bool) (t : Subtree α) :
    weight (enterIf worth t) ≤ 3 * t.count + 1 := by
  cases worth <;> simp [enterIf, weight]

theorem weight_unfold (start stop : UInt32) (t : Subtree α) :
    weight (unfold start stop t) < 3 * t.count + 1 := by
  cases t with
  | empty => simp [unfold, weight]
  | node l v r _ _ =>
    have hl := weight_enterIf (reaches start l) l
    have hr := weight_enterIf (reaches start r && decide ((Spanned.span v).start ≤ stop)) r
    simp only [unfold, weight_append, weight, Subtree.count] at *
    omega

theorem weight_next? {start stop : UInt32} {frames rest : List (Frame α)} {emitted : Option α}
    (h : next? start stop frames = some (emitted, rest)) : weight rest < weight frames := by
  cases frames with
  | nil => simp [next?] at h
  | cons f fs =>
    cases f with
    | emit v =>
      simp only [next?, Option.some.injEq, Prod.mk.injEq] at h
      obtain ⟨-, rfl⟩ := h
      simp [weight]
    | enter t =>
      simp only [next?, Option.some.injEq, Prod.mk.injEq] at h
      obtain ⟨-, rfl⟩ := h
      have := weight_unfold start stop t
      simp only [weight_append, weight]
      omega

/-- Runs frames to the end or until the visitor is done. The visitor sees each emitted value and
the state that the values before it left. -/
def run {σ : Type} (start stop : UInt32) (visit : α → σ → Except Fault (ForInStep σ))
    (frames : List (Frame α)) (state : σ) : Except Fault (ForInStep σ) :=
  match _h : next? start stop frames with
  | none => pure (.yield state)
  | some (none, rest) => run start stop visit rest state
  | some (some v, rest) => do
    match ← visit v state with
    | .done state' => pure (.done state')
    | .yield state' => run start stop visit rest state'
termination_by weight frames
decreasing_by all_goals exact weight_next? _h

section Steps

variable {σ : Type} (start stop : UInt32) (visit : α → σ → Except Fault (ForInStep σ)) (state : σ)

theorem run_nil : run start stop visit [] state = pure (.yield state) := by
  rw [run]
  rfl

theorem run_enter (t : Subtree α) (rest : List (Frame α)) :
    run start stop visit (.enter t :: rest) state =
      run start stop visit (unfold start stop t ++ rest) state := by
  rw [run]
  rfl

theorem run_emit (v : α) (rest : List (Frame α)) :
    run start stop visit (.emit v :: rest) state = (do
      match ← visit v state with
      | .done state' => pure (.done state')
      | .yield state' => run start stop visit rest state') := by
  rw [run]
  rfl

end Steps
end Walk

variable [Spanned α] {σ : Type}

/-- Walks over the values that may touch the `length` offsets from `start`. An empty tree answers
any query; otherwise the end of the query must be an offset. -/
def walk (t : IntervalTree α) (start length : UInt32)
    (visit : α → σ → Except Fault (ForInStep σ)) (state : σ) : Except Fault (ForInStep σ) :=
  match t.root with
  | .empty => pure (.yield state)
  | .node l v r h m =>
    match Offset.sum? start length with
    | none => .error (.queryEndOverflow start length)
    | some stop => Walk.run start stop visit [.enter (.node l v r h m)] state

/-- What a search has gathered: the state of its test, the buffer and the number of values added. -/
structure Gathered (σ α : Type) where
  state : σ
  buffer : Array α
  added : Nat

/-- Appends to `buffer` the walked values that pass `test`, all of them or only the first. The test
may keep a state of its own. -/
def gather (t : IntervalTree α) (start length : UInt32)
    (test : α → σ → Except Fault (Bool × σ)) (firstOnly : Bool) (state : σ) (buffer : Array α) :
    Except Fault (Gathered σ α) := do
  let outcome ← t.walk start length
    (fun v (g : Gathered σ α) => do
      let (passed, state') ← test v g.state
      if passed then
        let g' : Gathered σ α := ⟨state', g.buffer.push v, g.added + 1⟩
        pure (if firstOnly then .done g' else .yield g')
      else
        pure (.yield ⟨state', g.buffer, g.added⟩))
    ⟨state, buffer, 0⟩
  match outcome with
  | .done g => pure g
  | .yield g => pure g

/-- Whether some walked value passes `test`; no value after it is tested. -/
def any (t : IntervalTree α) (start length : UInt32)
    (test : α → σ → Except Fault (Bool × σ)) (state : σ) : Except Fault (Bool × σ) := do
  let outcome ← t.walk start length
    (fun v s => do
      let (passed, s') ← test v s
      pure (if passed then .done s' else .yield s'))
    state
  match outcome with
  | .done s => pure (true, s)
  | .yield s => pure (false, s)

end GreenTree.IntervalTree
