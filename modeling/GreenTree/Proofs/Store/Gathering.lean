import GreenTree.Proofs.Store.Cleanliness
import GreenTree.Proofs.Store.Texts

/-!
# Gathering over any ids

A client may build a node over an id that is handed out later, or never, so an id need not stand for
a tree. The walk that gathers a text passes over an id that is unknown, and where a node lies below
itself it goes round in a circle. If it ends at all it ends within its bound: it never comes below a
node to that node again, so with every level there is one node less to meet.
-/

namespace GreenTree.Arena

variable {a : Arena} {id child other : NodeId} {n : Node} {pending later : List NodeId}
  {steps more fuel : ℕ} {text rest out : String}

/-- Gathering the texts below these ids ends after `steps` steps and yields `text`. -/
inductive Gathers (a : Arena) : List NodeId → ℕ → String → Prop
  | nil : Gathers a [] 0 ""
  | unknown {id : NodeId} {pending : List NodeId} {steps : ℕ} {text : String}
      (hget : a.get? id = none) (h : Gathers a pending steps text) :
      Gathers a (id :: pending) (steps + 1) text
  | known {id : NodeId} {n : Node} {pending : List NodeId} {steps : ℕ} {text : String}
      (hget : a.get? id = some n) (h : Gathers a (n.children ++ pending) steps text) :
      Gathers a (id :: pending) (steps + 1) (n.text.getD "" ++ text)

theorem gatherText_unknown (hget : a.get? id = none) (fuel : ℕ) (pending : List NodeId)
    (out : String) :
    a.gatherText (fuel + 1) (id :: pending) out = a.gatherText fuel pending out := by
  rw [gatherText]
  simp only [hget]

theorem gatherText_nil (fuel : ℕ) (out : String) : a.gatherText fuel [] out = .ok out := by
  simp [gatherText]

/-- The walk yields a text if it gets there with the steps it has. -/
theorem gatherText_eq_ok_iff : a.gatherText fuel pending out = .ok rest ↔
    ∃ steps text, a.Gathers pending steps text ∧ steps ≤ fuel ∧ rest = out ++ text := by
  constructor
  · intro h
    induction fuel generalizing pending out with
    | zero =>
      cases pending with
      | nil =>
        rw [gatherText_nil, Except.ok.injEq] at h
        exact ⟨0, "", .nil, le_rfl, by rw [← h, String.append_empty]⟩
      | cons id pending => cases h
    | succ fuel ih =>
      cases pending with
      | nil =>
        rw [gatherText_nil, Except.ok.injEq] at h
        exact ⟨0, "", .nil, Nat.zero_le _, by rw [← h, String.append_empty]⟩
      | cons id pending =>
        rcases hget : a.get? id with _ | n
        · rw [gatherText_unknown hget] at h
          obtain ⟨steps, text, hgathers, hle, rfl⟩ := ih h
          exact ⟨steps + 1, text, .unknown hget hgathers, Nat.succ_le_succ hle, rfl⟩
        · rw [gatherText_known hget] at h
          obtain ⟨steps, text, hgathers, hle, rfl⟩ := ih h
          exact ⟨steps + 1, _, .known hget hgathers, Nat.succ_le_succ hle, String.append_assoc⟩
  · rintro ⟨steps, text, hgathers, hle, rfl⟩
    induction hgathers generalizing fuel out with
    | nil => rw [gatherText_nil, String.append_empty]
    | unknown hget _ ih =>
      obtain ⟨fuel, rfl⟩ := Nat.exists_eq_add_one_of_ne_zero (Nat.ne_zero_of_lt hle)
      rw [gatherText_unknown hget, ih (Nat.le_of_succ_le_succ hle)]
    | known hget _ ih =>
      obtain ⟨fuel, rfl⟩ := Nat.exists_eq_add_one_of_ne_zero (Nat.ne_zero_of_lt hle)
      rw [gatherText_known hget, ih (Nat.le_of_succ_le_succ hle), String.append_assoc]

theorem eq_endlessWalk_of_gatherText {fault : Fault}
    (h : a.gatherText fuel pending out = .error fault) : fault = .endlessWalk := by
  induction fuel generalizing pending out with
  | zero =>
    cases pending with
    | nil => cases h
    | cons id pending =>
      cases h
      rfl
  | succ fuel ih =>
    cases pending with
    | nil => cases h
    | cons id pending =>
      rcases hget : a.get? id with _ | n
      · rw [gatherText_unknown hget] at h
        exact ih h
      · rw [gatherText_known hget] at h
        exact ih h

namespace Gathers

theorem unique (h : a.Gathers pending steps text) (h' : a.Gathers pending more rest) :
    steps = more ∧ text = rest := by
  induction h generalizing more rest with
  | nil =>
    cases h'
    exact ⟨rfl, rfl⟩
  | unknown hget _ ih =>
    cases h' with
    | unknown _ h' =>
      obtain ⟨rfl, rfl⟩ := ih h'
      exact ⟨rfl, rfl⟩
    | known hget' _ => simp [hget] at hget'
  | known hget _ ih =>
    cases h' with
    | unknown hget' _ => simp [hget] at hget'
    | known hget' h' =>
      rw [hget, Option.some.injEq] at hget'
      subst hget'
      obtain ⟨rfl, rfl⟩ := ih h'
      exact ⟨rfl, rfl⟩

theorem append (h : a.Gathers pending steps text) (h' : a.Gathers later more rest) :
    a.Gathers (pending ++ later) (steps + more) (text ++ rest) := by
  induction h with
  | nil => simpa using h'
  | unknown hget _ ih =>
    rw [Nat.add_right_comm]
    exact .unknown hget ih
  | known hget _ ih =>
    rw [Nat.add_right_comm, String.append_assoc]
    exact .known hget (List.append_assoc .. ▸ ih)

theorem split (h : a.Gathers (pending ++ later) steps text) :
    ∃ first second before after, a.Gathers pending first before ∧ a.Gathers later second after ∧
      steps = first + second ∧ text = before ++ after := by
  generalize hall : pending ++ later = all at h
  induction h generalizing pending with
  | nil =>
    obtain ⟨rfl, rfl⟩ := List.append_eq_nil_iff.mp hall
    exact ⟨0, 0, "", "", .nil, .nil, rfl, rfl⟩
  | @unknown _ _ steps text hget h ih =>
    cases pending with
    | nil =>
      subst hall
      exact ⟨0, steps + 1, "", text, .nil, .unknown hget h, (Nat.zero_add _).symm,
        String.empty_append.symm⟩
    | cons id pending =>
      rw [List.cons_append, List.cons.injEq] at hall
      obtain ⟨rfl, rfl⟩ := hall
      obtain ⟨first, second, before, after, hfirst, hsecond, rfl, rfl⟩ := ih rfl
      exact ⟨first + 1, second, before, after, .unknown hget hfirst, hsecond,
        Nat.add_right_comm .., rfl⟩
  | @known _ n _ steps text hget h ih =>
    cases pending with
    | nil =>
      subst hall
      exact ⟨0, steps + 1, "", n.text.getD "" ++ text, .nil, .known hget h, (Nat.zero_add _).symm,
        String.empty_append.symm⟩
    | cons id pending =>
      rw [List.cons_append, List.cons.injEq] at hall
      obtain ⟨rfl, rfl⟩ := hall
      obtain ⟨first, second, before, after, hfirst, hsecond, rfl, rfl⟩ := ih (List.append_assoc ..)
      exact ⟨first + 1, second, n.text.getD "" ++ before, after, .known hget hfirst, hsecond,
        Nat.add_right_comm .., String.append_assoc.symm⟩

theorem split_cons (h : a.Gathers (id :: pending) steps text) :
    ∃ first second before after, a.Gathers [id] first before ∧ a.Gathers pending second after ∧
      steps = first + second ∧ text = before ++ after := by
  rw [← List.singleton_append] at h
  exact h.split

theorem of_mem (h : a.Gathers pending steps text) (hid : id ∈ pending) :
    ∃ fewer part, a.Gathers [id] fewer part ∧ fewer ≤ steps := by
  obtain ⟨before, after, rfl⟩ := List.append_of_mem hid
  obtain ⟨_, _, _, _, -, hlater, rfl, -⟩ := h.split
  obtain ⟨first, second, part, _, hid, -, rfl, -⟩ := hlater.split_cons
  exact ⟨first, part, hid, by omega⟩

theorem of_forall (h : ∀ id ∈ pending, ∃ steps text, a.Gathers [id] steps text) :
    ∃ steps text, a.Gathers pending steps text := by
  induction pending with
  | nil => exact ⟨0, "", .nil⟩
  | cons id pending ih =>
    obtain ⟨⟨first, before, hfirst⟩, hpending⟩ := List.forall_mem_cons.mp h
    obtain ⟨second, after, hsecond⟩ := ih hpending
    exact ⟨_, _, hfirst.append hsecond⟩

theorem of_child (h : a.Gathers [id] steps text) (hget : a.get? id = some n)
    (hchild : child ∈ n.children) : ∃ fewer part, a.Gathers [child] fewer part ∧ fewer < steps := by
  cases h with
  | unknown hget' _ => simp [hget] at hget'
  | known hget' h =>
    rw [hget, Option.some.injEq] at hget'
    subst hget'
    obtain ⟨fewer, part, hpart, hle⟩ := h.of_mem (List.mem_append_left [] hchild)
    exact ⟨fewer, part, hpart, Nat.lt_succ_of_le hle⟩

theorem of_below (h : a.Gathers [id] steps text) (hother : a.Below id other) :
    ∃ fewer part, a.Gathers [other] fewer part ∧ fewer ≤ steps := by
  induction hother generalizing steps text with
  | self id => exact ⟨steps, text, h, le_rfl⟩
  | child hget hchild _ ih =>
    obtain ⟨fewer, part, hpart, hlt⟩ := h.of_child hget hchild
    obtain ⟨fewest, least, hleast, hle⟩ := ih hpart
    exact ⟨fewest, least, hleast, hle.trans hlt.le⟩

/-- A walk that ends does not come to the node again, below which it has gone. -/
theorem not_below_child (h : a.Gathers [id] steps text) (hget : a.get? id = some n)
    (hchild : child ∈ n.children) : ¬ a.Below child id := by
  intro hbelow
  obtain ⟨fewer, _, hpart, hlt⟩ := h.of_child hget hchild
  obtain ⟨fewest, _, hagain, hle⟩ := hpart.of_below hbelow
  have heq := (h.unique hagain).1
  omega

theorem steps_le_length_mul {bound : ℕ} (h : a.Gathers pending steps text)
    (hbound : ∀ id ∈ pending, ∀ fewer part, a.Gathers [id] fewer part → fewer ≤ steps →
      fewer ≤ bound) : steps ≤ pending.length * bound := by
  induction pending generalizing steps text with
  | nil =>
    cases h
    exact Nat.zero_le _
  | cons id pending ih =>
    obtain ⟨first, second, _, _, hfirst, hsecond, rfl, -⟩ := h.split_cons
    have hid := hbound id List.mem_cons_self first _ hfirst (Nat.le_add_right _ _)
    have hpending := ih hsecond fun other hother fewer part hpart hle =>
      hbound other (List.mem_cons_of_mem _ hother) fewer part hpart
        (hle.trans (Nat.le_add_left _ _))
    rw [List.length_cons, Nat.succ_mul]
    omega

/-- With every level below an id there is one node less to meet. -/
theorem steps_le_pow (h : a.Gathers [id] steps text) {ids : Finset NodeId}
    (hids : ∀ other n, a.Below id other → a.get? other = some n → other ∈ ids) :
    steps ≤ (a.maxSlots + 1) ^ (ids.card + 1) := by
  induction steps using Nat.strong_induction_on generalizing id text ids with
  | _ steps ih =>
    cases h with
    | unknown _ h =>
      cases h
      exact Nat.one_le_pow _ _ (Nat.succ_pos _)
    | @known _ n _ steps text hget h =>
      have hid : id ∈ ids := hids id n (.self id) hget
      have hcard : (ids.erase id).card + 1 = ids.card := Finset.card_erase_add_one hid
      have hchildren : ∀ child ∈ n.children ++ [], ∀ fewer part, a.Gathers [child] fewer part →
          fewer ≤ steps → fewer ≤ (a.maxSlots + 1) ^ ids.card := by
        intro child hchild fewer part hpart hle
        rw [List.append_nil] at hchild
        rw [← hcard]
        -- Below the child the walk does not meet `id` again, so `id` is not needed there.
        apply ih fewer (Nat.lt_succ_of_le hle) hpart
        intro other m hother hm
        refine Finset.mem_erase.mpr ⟨?_, hids other m (.child hget hchild hother) hm⟩
        rintro rfl
        exact (Gathers.known hget h).not_below_child hget hchild hother
      have hsteps := h.steps_le_length_mul hchildren
      have hfew : (n.children ++ []).length ≤ a.maxSlots := by
        rw [List.append_nil]
        exact (List.length_filterMap_le _ _).trans (length_slots_le hget)
      calc steps + 1
          ≤ (n.children ++ []).length * (a.maxSlots + 1) ^ ids.card + 1 := Nat.succ_le_succ hsteps
        _ ≤ a.maxSlots * (a.maxSlots + 1) ^ ids.card + (a.maxSlots + 1) ^ ids.card :=
            Nat.add_le_add (Nat.mul_le_mul_right _ hfew) (Nat.one_le_pow _ _ (Nat.succ_pos _))
        _ = (a.maxSlots + 1) ^ (ids.card + 1) := by ring

end Gathers

/-- There are no more known ids than nodes. -/
theorem exists_finset_known (a : Arena) :
    ∃ ids : Finset NodeId, (∀ id n, a.get? id = some n → id ∈ ids) ∧ ids.card ≤ a.size := by
  let place (id : NodeId) : Σ _ : Fin Limits.shardCount, ℕ := ⟨id.shard, id.index⟩
  let places : Finset (Σ _ : Fin Limits.shardCount, ℕ) :=
    Finset.univ.sigma fun shard => Finset.range (a.shards.get shard).size
  have hplace : Function.Injective place := by
    intro id other h
    obtain ⟨hshard, hindex⟩ := Sigma.mk.inj h
    exact NodeId.eq_of_shard_of_index hshard (eq_of_heq hindex)
  refine ⟨places.preimage place hplace.injOn, ?_, ?_⟩
  · intro id n hget
    rw [get?] at hget
    split_ifs at hget
    obtain ⟨hindex, -⟩ := Array.getElem?_eq_some_iff.mp hget
    simpa [places, place] using hindex
  · calc (places.preimage place hplace.injOn).card
        ≤ places.card := Finset.card_le_card_of_injOn place (by simp [Set.MapsTo]) hplace.injOn
      _ = a.size := by rw [Finset.card_sigma, size_eq_sum]; simp

/-- An id has a text if the walk ends at all. -/
theorem text_eq_ok_iff : a.text id = .ok text ↔ ∃ steps, a.Gathers [id] steps text := by
  rw [Arena.text, gatherText_eq_ok_iff]
  constructor
  · rintro ⟨steps, rest, h, -, rfl⟩
    rw [String.empty_append]
    exact ⟨steps, h⟩
  · rintro ⟨steps, h⟩
    obtain ⟨ids, hids, hcard⟩ := a.exists_finset_known
    have hpow := h.steps_le_pow fun other n _ hget => hids other n hget
    exact ⟨steps, text, h, hpow.trans (a.pow_le_walkBound (by omega)), String.empty_append.symm⟩

theorem eq_endlessWalk_of_text {fault : Fault} (h : a.text id = .error fault) :
    fault = .endlessWalk :=
  eq_endlessWalk_of_gatherText h

end GreenTree.Arena
