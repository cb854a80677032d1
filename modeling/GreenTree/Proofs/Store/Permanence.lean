import GreenTree.Proofs.Store.Gathering
import GreenTree.Proofs.Store.Offers

/-!
# How long a text lasts

Nodes never change, but a node may have an id in a slot that is not handed out yet. Such a gap adds
nothing to the width of the node, while the text of the node is gathered from whatever the slots
name in the end. So texts last, and agree with widths, exactly where no gap is filled.
-/

namespace GreenTree

namespace Node

/-- The widths of some nodes together, which may be more than widths go. -/
def widths (nodes : List Node) : ℕ := (nodes.map fun n => n.width.toNat).sum

theorem widths_cons (n : Node) (nodes : List Node) :
    widths (n :: nodes) = n.width.toNat + widths nodes :=
  List.sum_cons

theorem widths_append (nodes more : List Node) :
    widths (nodes ++ more) = widths nodes + widths more := by
  rw [widths, List.map_append, List.sum_append, widths, widths]

theorem toNat_widthOver (nodes : List Node) :
    (widthOver nodes).toNat = min (widths nodes) Limits.maxWidth.toNat := by
  have hfold : ∀ sum : UInt32,
      (nodes.foldl (fun sum n => Offset.cappedSum sum n.width) sum).toNat =
        min (sum.toNat + widths nodes) (UInt32.size - 1) := by
    induction nodes with
    | nil => exact fun sum => (Nat.min_eq_left (Nat.le_sub_one_of_lt sum.toNat_lt)).symm
    | cons n rest ih =>
      intro sum
      rw [List.foldl_cons, ih, Offset.toNat_cappedSum, widths_cons]
      omega
  rw [widthOver, hfold, UInt32.toNat_zero, Nat.zero_add]
  rfl

/-- A token has no slots and is as wide as its text. -/
def Spelled (n : Node) : Prop :=
  ∀ text, n.text = some text → n.slots = [] ∧ n.width.toNat = text.utf8ByteSize

theorem Made.spelled {arena : Arena} {n : Node} (h : n.Made arena)
    (harena : ∀ id m, arena.get? id = some m → m.Spelled) : n.Spelled := by
  cases h with
  | token hn => exact (founded_of_token hn : n.Founded arena).token
  | @diagnosed id n hget diagnostics => exact harena id n hget
  | @annotated id n hget annotations => exact harena id n hget

theorem spelled_assemble (arena : Arena) (key : NodeKey) : (Store.assemble arena key).Spelled := by
  intro text htext
  rw [Store.assemble_eq] at htext
  cases htext

end Node

namespace Arena

variable {a b : Arena} {id child other : NodeId} {n : Node} {pending : List NodeId} {steps : ℕ}
  {text : String}

theorem Below.trans (h : a.Below id child) (h' : a.Below child other) : a.Below id other := by
  induction h with
  | self _ => exact h'
  | child hget hchild _ ih => exact .child hget hchild (ih h')

theorem Below.of_child (h : a.Below id other) (hget : a.get? other = some n)
    (hchild : child ∈ n.children) : a.Below id child :=
  h.trans (.child hget hchild (.self child))

/-- What holds of an id and passes from every node to its children holds of all ids below. -/
theorem Below.inherits (h : a.Below id other) (P : NodeId → Prop) (hid : P id)
    (hchildren : ∀ id n, a.get? id = some n → P id → ∀ child ∈ n.children, P child) : P other := by
  induction h with
  | self _ => exact hid
  | child hget hchild _ ih => exact ih (hchildren _ _ hget hid _ hchild)

/-- An id that does not become known means the same in a larger arena. -/
theorem Extends.get?_eq (hab : a.Extends b) (h : b.contains id = true → a.contains id = true) :
    b.get? id = a.get? id := by
  rcases hget : a.get? id with _ | n
  · by_contra hnew
    have hknown := h (Option.isSome_iff_ne_none.mpr hnew)
    rw [contains, hget] at hknown
    cases hknown
  · exact hab id n hget

/-- Below `id` all ids mean the same in both arenas, or they are unknown in both. -/
def AgreesBelow (a b : Arena) (id : NodeId) : Prop :=
  ∀ other, a.Below id other → b.get? other = a.get? other

namespace AgreesBelow

theorem of_child (h : a.AgreesBelow b id) (hget : a.get? id = some n)
    (hchild : child ∈ n.children) : a.AgreesBelow b child :=
  fun other hother => h other (.child hget hchild hother)

theorem below (h : a.AgreesBelow b id) (hother : b.Below id other) : a.Below id other := by
  induction hother with
  | self id => exact .self id
  | child hget hchild _ ih =>
    rw [h _ (.self _)] at hget
    exact .child hget hchild (ih (h.of_child hget hchild))

theorem symm (h : a.AgreesBelow b id) : b.AgreesBelow a id :=
  fun other hother => (h other (h.below hother)).symm

/-- A larger arena agrees wherever it fills no gap. -/
theorem of_extends (hab : a.Extends b)
    (h : ∀ other, a.Below id other → b.contains other = true → a.contains other = true) :
    a.AgreesBelow b id :=
  fun other hother => hab.get?_eq (h other hother)

theorem known_children (h : a.AgreesBelow b id) (hother : a.Below id other)
    (hget : a.get? other = some n) : b.known n.children = a.known n.children :=
  List.filterMap_congr fun _ hchild => h _ (hother.of_child hget hchild)

end AgreesBelow

theorem Gathers.of_agreesBelow (h : a.Gathers pending steps text)
    (hagree : ∀ id ∈ pending, a.AgreesBelow b id) : b.Gathers pending steps text := by
  induction h with
  | nil => exact .nil
  | unknown hget _ ih =>
    obtain ⟨hid, hpending⟩ := List.forall_mem_cons.mp hagree
    exact .unknown ((hid _ (.self _)).trans hget) (ih hpending)
  | known hget _ ih =>
    obtain ⟨hid, hpending⟩ := List.forall_mem_cons.mp hagree
    refine .known ((hid _ (.self _)).trans hget) (ih ?_)
    intro other hother
    rcases List.mem_append.mp hother with hchild | hother
    · exact hid.of_child hget hchild
    · exact hpending other hother

theorem gathers_iff_of_agreesBelow (h : a.AgreesBelow b id) :
    b.Gathers [id] steps text ↔ a.Gathers [id] steps text := by
  constructor
  · exact fun hb => hb.of_agreesBelow (List.forall_mem_singleton.mpr h.symm)
  · exact fun ha => ha.of_agreesBelow (List.forall_mem_singleton.mpr h)

/-- Whoever agrees below an id reads the same text there, or goes round in a circle as well. -/
theorem text_of_agreesBelow (h : a.AgreesBelow b id) : b.text id = a.text id := by
  have hiff : ∀ text, b.text id = .ok text ↔ a.text id = .ok text := by
    intro text
    rw [text_eq_ok_iff, text_eq_ok_iff]
    exact exists_congr fun steps => gathers_iff_of_agreesBelow h
  rcases ha : a.text id with fault | text
  · rcases hb : b.text id with fault' | text
    · rw [eq_endlessWalk_of_text ha, eq_endlessWalk_of_text hb]
    · rw [(hiff text).mp hb] at ha
      cases ha
  · exact (hiff text).mpr ha

/-- Every node below `id` is as wide as its children are together. -/
def Measured (a : Arena) (id : NodeId) : Prop :=
  ∀ other n, a.Below id other → a.get? other = some n → a.measures n = true

theorem Measured.of_agreesBelow (h : a.Measured id) (hagree : a.AgreesBelow b id) :
    b.Measured id := by
  intro other n hother hget
  have hother := hagree.below hother
  rw [hagree other hother] at hget
  rw [measures, hagree.known_children hother hget]
  exact h other n hother hget

theorem Measured.of_child (h : a.Measured id) (hget : a.get? id = some n)
    (hchild : child ∈ n.children) : a.Measured child :=
  fun other m hother hm => h other m (.child hget hchild hother) hm

/-- Where nodes are as wide as their children, the widths of some ids add up to the size of their
texts, as far as widths go. -/
theorem Gathers.widths_eq (h : a.Gathers pending steps text)
    (hspelled : ∀ id n, a.get? id = some n → n.Spelled)
    (hmeasured : ∀ id ∈ pending, a.Measured id) :
    min (Node.widths (a.known pending)) Limits.maxWidth.toNat =
      min text.utf8ByteSize Limits.maxWidth.toNat := by
  induction h with
  | nil => rfl
  | @unknown id pending _ _ hget _ ih =>
    have hknown : a.known (id :: pending) = a.known pending := List.filterMap_cons_none hget
    rw [hknown]
    exact ih fun other hother => hmeasured other (List.mem_cons_of_mem _ hother)
  | @known id n pending _ text hget _ ih =>
    obtain ⟨hid, hpending⟩ := List.forall_mem_cons.mp hmeasured
    have hknown : a.known (id :: pending) = n :: a.known pending := List.filterMap_cons_some hget
    have hwidths : Node.widths (a.known (id :: pending)) =
        n.width.toNat + Node.widths (a.known pending) := by
      rw [hknown, Node.widths_cons]
    have hbelow : Node.widths (a.known (n.children ++ pending)) =
        Node.widths (a.known n.children) + Node.widths (a.known pending) := by
      rw [Arena.known, List.filterMap_append, Node.widths_append]
      rfl
    have hrest := ih fun other hother => (List.mem_append.mp hother).elim
      (fun hchild => hid.of_child hget hchild) (hpending other)
    rw [hbelow] at hrest
    rw [hwidths, String.utf8ByteSize_append]
    -- An interior node's width counts the text of its children; a token has none below it.
    rcases htext : n.text with _ | own
    · have hmeasures := hid id n (.self id) hget
      rw [measures, Node.isToken, htext, Option.isSome_none, Bool.false_or, beq_iff_eq] at hmeasures
      rw [hmeasures, Node.toNat_widthOver, Option.getD_none, String.utf8ByteSize_empty]
      omega
    · obtain ⟨hslots, hwidth⟩ := hspelled id n hget own htext
      have hleaf : n.children = [] := by
        rw [Node.slots] at hslots
        rw [Node.children, NodeKey.children, hslots]
        rfl
      rw [hleaf] at hrest
      change min (0 + _) _ = _ at hrest
      rw [hwidth, Option.getD_some]
      omega

/-- A measured node is as wide as its text, as far as widths go. -/
theorem Measured.width_eq (h : a.Measured id) (hspelled : ∀ id n, a.get? id = some n → n.Spelled)
    (hget : a.get? id = some n) (htext : a.text id = .ok text) :
    n.width.toNat = min text.utf8ByteSize Limits.maxWidth.toNat := by
  obtain ⟨steps, hgathers⟩ := text_eq_ok_iff.mp htext
  have hwidths := hgathers.widths_eq hspelled (List.forall_mem_singleton.mpr h)
  have hknown : a.known [id] = [n] := List.filterMap_cons_some hget
  rw [hknown] at hwidths
  exact (Nat.min_eq_left (Nat.le_of_lt_succ n.width.toNat_lt)).symm.trans hwidths

/-- A node built over measured children is measured, unless one of them names it already. -/
theorem Measured.store {key : NodeKey}
    (hstore : a.store (Store.assemble a key) = .ok (id, b))
    (h : ∀ child ∈ key.children, a.Measured child ∧ ¬ a.Below child id) : b.Measured id := by
  have hsame : ∀ other, other ≠ id → b.get? other = a.get? other := by
    intro other hother
    rw [get?_of_storeIn hstore, if_neg hother]
  have hagree : ∀ child ∈ key.children, a.AgreesBelow b child := by
    intro child hchild other hother
    exact hsame other fun heq => (h child hchild).2 (heq ▸ hother)
  have hget : b.get? id = some (Store.assemble a key) := get?_stored hstore
  intro other n hother hn
  cases hother with
  | self =>
    rw [hget, Option.some.injEq] at hn
    subst hn
    have hknown : b.known (Store.assemble a key).children =
        a.known (Store.assemble a key).children := by
      rw [Store.children_assemble]
      exact List.filterMap_congr fun child hchild => hagree child hchild child (.self child)
    rw [measures, hknown]
    exact Lasting.measures.assembled a key
  | child hget' hchild hother =>
    rw [hget, Option.some.injEq] at hget'
    subst hget'
    rw [Store.children_assemble] at hchild
    exact (h _ hchild).1.of_agreesBelow (hagree _ hchild) other n hother hn

/-- Every node is as wide as its children are together, and has a rank above those of the children
that are known. -/
structure Ranked (a : Arena) (rank : NodeId → ℕ) : Prop where
  measures : ∀ id n, a.get? id = some n → a.measures n = true
  rank_lt : ∀ id n, a.get? id = some n → rank id < a.size
  lower : ∀ id n, a.get? id = some n → ∀ child ∈ n.children, a.contains child = true →
    rank child < rank id

/-- The ids in the slots of the nodes of `b` that `a` does not know are unknown in `b` as well. -/
def KeepsGaps (a b : Arena) : Prop :=
  ∀ n ∈ b.nodes, ∀ child ∈ n.children, b.contains child = true → a.contains child = true

namespace Ranked

variable {rank : NodeId → ℕ}

theorem empty (rank : NodeId → ℕ) : Arena.empty.Ranked rank := by
  have hget : ∀ id n, Arena.empty.get? id ≠ some n := by simp [get?, Arena.empty, Vector.get]
  exact ⟨fun id n h => absurd h (hget id n), fun id n h => absurd h (hget id n),
    fun id n h => absurd h (hget id n)⟩

/-- A new node gets the highest rank so far. -/
theorem store (h : a.Ranked rank) (hn : a.measures n = true) (hstore : a.store n = .ok (id, b))
    (hgaps : a.KeepsGaps b) : b.Ranked (Function.update rank id a.size) := by
  have hextends := extends_of_store hstore
  have hsize : b.size = a.size + 1 := size_of_storeIn hstore
  have hold : ∀ other m, a.get? other = some m →
      Function.update rank id a.size other = rank other := fun other m hm =>
    Function.update_of_ne (ne_of_store hstore hm) _ _
  have hknown : ∀ other m, b.get? other = some m → b.known m.children = a.known m.children :=
    fun other m hm => List.filterMap_congr fun child hchild =>
      hextends.get?_eq (hgaps m (mem_nodes hm) child hchild)
  constructor
  · intro other m hm
    have hmeasures : a.measures m = true := by
      obtain ⟨rfl, rfl⟩ | hm := new_or_known_of_store hstore hm
      · exact hn
      · exact h.measures other m hm
    rw [Arena.measures, hknown other m hm]
    exact hmeasures
  · intro other m hm
    rw [hsize]
    obtain ⟨rfl, rfl⟩ | hm := new_or_known_of_store hstore hm
    · rw [Function.update_self]
      exact Nat.lt_succ_self _
    · rw [hold other m hm]
      exact (h.rank_lt other m hm).trans (Nat.lt_succ_self _)
  · intro other m hm child hchild hcontains
    have hbefore := hgaps m (mem_nodes hm) child hchild hcontains
    obtain ⟨below, hbelow⟩ := Option.isSome_iff_exists.mp hbefore
    rw [hold child below hbelow]
    obtain ⟨rfl, rfl⟩ | hm := new_or_known_of_store hstore hm
    · rw [Function.update_self]
      exact h.rank_lt child below hbelow
    · rw [hold other m hm]
      exact h.lower other m hm child hchild hbefore

/-- From every id the walk comes to its end. -/
theorem exists_gathers (h : a.Ranked rank) (id : NodeId) :
    ∃ steps text, a.Gathers [id] steps text := by
  induction hrank : rank id using Nat.strong_induction_on generalizing id with
  | _ height ih =>
    rcases hget : a.get? id with _ | n
    · exact ⟨1, "", .unknown hget .nil⟩
    · have hchildren : ∀ child ∈ n.children, ∃ steps text, a.Gathers [child] steps text := by
        intro child hchild
        rcases hchildget : a.get? child with _ | m
        · exact ⟨1, "", .unknown hchildget .nil⟩
        · have hcontains : a.contains child = true := Option.isSome_iff_exists.mpr ⟨m, hchildget⟩
          have hlower := h.lower id n hget child hchild hcontains
          exact ih (rank child) (hrank ▸ hlower) child rfl
      obtain ⟨steps, text, hgathers⟩ := Gathers.of_forall hchildren
      rw [← List.append_nil n.children] at hgathers
      exact ⟨steps + 1, _, .known hget hgathers⟩

end Ranked

end Arena

/-- The action hands out no id that a node has in a slot, the new node included. -/
def Action.keepsGaps (s : Store) (action : Store.Action) : Bool :=
  match s.act action with
  | .error _ => true
  | .ok (_, s') => s'.arena.nodes.all fun n => n.children.all fun child =>
    s.arena.contains child || !s'.arena.contains child

theorem Node.measures_of_made {arena : Arena} {n : Node} (h : n.Made arena)
    (harena : ∀ id m, arena.get? id = some m → arena.measures m = true) :
    arena.measures n = true := by
  cases h with
  | token hn =>
    rw [token] at hn
    split_ifs at hn
    cases hn
    rfl
  | @diagnosed id m hget diagnostics => exact harena id m hget
  | @annotated id m hget annotations => exact harena id m hget

namespace Store

variable {s s' : Store} {action : Action} {id? : Option NodeId} {rank : NodeId → ℕ}

theorem keepsGaps_of_act (hrule : action.keepsGaps s = true) (h : s.act action = .ok (id?, s')) :
    s.arena.KeepsGaps s'.arena := by
  intro n hn child hchild hcontains
  rw [Action.keepsGaps, h] at hrule
  have hgap := List.all_eq_true.mp (List.all_eq_true.mp hrule n hn) child hchild
  simpa [hcontains] using hgap

theorem Change.ranked (h : s.Change action s') (hgaps : s.arena.KeepsGaps s'.arena)
    (hs : s.arena.Ranked rank) : ∃ rank', s'.arena.Ranked rank' := by
  cases h with
  | kept harena _ => exact ⟨rank, harena ▸ hs⟩
  | stored hn hstore _ => exact ⟨_, hs.store (Node.measures_of_made hn hs.measures) hstore hgaps⟩
  | built _ hstore _ => exact ⟨_, hs.store (Arena.Lasting.measures.assembled _ _) hstore hgaps⟩
  | offered _ harena _ => exact ⟨rank, harena ▸ hs⟩
  | cleared harena _ => exact ⟨rank, harena ▸ hs⟩

theorem ranked_run (instanceNumber : ℕ) (cache : Cache) {actions : List Action}
    (h : (ofCache instanceNumber cache).Obeys Action.keepsGaps actions) :
    ∃ rank, ((ofCache instanceNumber cache).run actions).arena.Ranked rank := by
  refine Run.last_induction Action.keepsGaps (fun s : Store => ∃ rank, s.arena.Ranked rank) ?_ h
    ⟨fun _ => 0, .empty _⟩
  rintro s action id? s' ⟨rank, hs⟩ hrule hact
  exact (change_of_act hact).ranked (keepsGaps_of_act hrule hact) hs

/-- Over a whole run the gaps of the nodes that were there before stay gaps. -/
theorem contains_of_run {actions : List Action} (h : s.Obeys Action.keepsGaps actions) {id : NodeId}
    {n : Node} (hget : s.arena.get? id = some n) {child : NodeId} (hchild : child ∈ n.children)
    (hcontains : (s.run actions).arena.contains child = true) : s.arena.contains child = true := by
  refine (Run.last_induction Action.keepsGaps (fun t : Store => t.arena.get? id = some n ∧
    (t.arena.contains child = true → s.arena.contains child = true)) ?_ h
    ⟨hget, fun h => h⟩).2 hcontains
  rintro t action id? t' ⟨hget, hbefore⟩ hrule hact
  have hget' := (change_of_act hact).extends id n hget
  refine ⟨hget', fun hafter => hbefore ?_⟩
  exact keepsGaps_of_act hrule hact n (Arena.mem_nodes hget') child hchild hafter

theorem agreesBelow_run {actions : List Action} (h : s.Obeys Action.keepsGaps actions) {id : NodeId}
    {n : Node} (hget : s.arena.get? id = some n) :
    s.arena.AgreesBelow (s.run actions).arena id := by
  apply Arena.AgreesBelow.of_extends (extends_run s actions)
  intro other hother
  refine hother.inherits (fun other => (s.run actions).arena.contains other = true →
    s.arena.contains other = true) ?_ ?_
  · exact fun _ => Option.isSome_iff_exists.mpr ⟨n, hget⟩
  · exact fun id n hget _ child hchild => contains_of_run h hget hchild

theorem spelled_run (instanceNumber : ℕ) (cache : Cache) (actions : List Action) (id : NodeId)
    (n : Node) (hget : ((ofCache instanceNumber cache).run actions).arena.get? id = some n) :
    n.Spelled := by
  refine Run.last_preserves (fun s : Store => ∀ id n, s.arena.get? id = some n → n.Spelled) ?_ ?_
    id n hget
  · intro s action _ id? s' hs h other m hm
    cases change_of_act h with
    | kept harena _ => exact hs other m (harena ▸ hm)
    | stored hn hstore _ =>
      obtain ⟨-, rfl⟩ | hm := Arena.new_or_known_of_store hstore hm
      · exact hn.spelled hs
      · exact hs other m hm
    | built _ hstore _ =>
      obtain ⟨-, rfl⟩ | hm := Arena.new_or_known_of_store hstore hm
      · exact Node.spelled_assemble _ _
      · exact hs other m hm
    | offered _ harena _ => exact hs other m (harena ▸ hm)
    | cleared harena _ => exact hs other m (harena ▸ hm)
  · intro other m hm
    simp [ofCache, Arena.get?, Arena.empty, Vector.get] at hm

/-- How long a known id keeps its meaning. Nodes may be built over any ids. A node never changes,
and its text lasts until an id below it becomes known that was not. Where every node below it is as
wide as its children are together, it is as wide as its text, as far as widths go; this lasts as
long as the text, and it holds of a node that is built over such nodes. While no id is handed out
that a node has in a slot, it holds of all nodes, every id has a text, and all texts last. -/
theorem text_lasts_until_gap_is_filled (instanceNumber : ℕ) (cache : Cache)
    (before later : List Action) :
    let start := ofCache instanceNumber cache
    let s := start.run before
    let t := s.run later
    (∀ id n, s.arena.get? id = some n → t.arena.get? id = some n) ∧
      (∀ id, (∀ other, s.arena.Below id other → t.arena.contains other = true →
          s.arena.contains other = true) →
        t.text id = s.text id ∧ (s.arena.Measured id → t.arena.Measured id)) ∧
      (∀ id n text, s.arena.get? id = some n → s.arena.Measured id → s.text id = .ok text →
        n.width.toNat = min text.utf8ByteSize Limits.maxWidth.toNat) ∧
      (∀ key id arena, s.arena.store (assemble s.arena key) = .ok (id, arena) →
        (∀ child ∈ key.children, s.arena.Measured child ∧ ¬ s.arena.Below child id) →
          arena.Measured id) ∧
      (start.Obeys Action.keepsGaps before → s.Obeys Action.keepsGaps later →
        ∀ id n, s.arena.get? id = some n → ∃ text, s.text id = .ok text ∧ t.text id = .ok text ∧
          n.width.toNat = min text.utf8ByteSize Limits.maxWidth.toNat) := by
  intro start s t
  have hextends : s.arena.Extends t.arena := extends_run s later
  have hspelled := spelled_run instanceNumber cache before
  refine ⟨hextends, ?_, ?_, ?_, ?_⟩
  · intro id hgaps
    have hagree := Arena.AgreesBelow.of_extends hextends hgaps
    exact ⟨Arena.text_of_agreesBelow hagree, fun h => h.of_agreesBelow hagree⟩
  · exact fun id n text hget hmeasured htext => hmeasured.width_eq hspelled hget htext
  · exact fun key id arena hstore hchildren => .store hstore hchildren
  · intro hbefore hlater id n hget
    obtain ⟨rank, hranked⟩ := ranked_run instanceNumber cache hbefore
    obtain ⟨steps, text, hgathers⟩ := hranked.exists_gathers id
    have htext : s.text id = .ok text := Arena.text_eq_ok_iff.mpr ⟨steps, hgathers⟩
    have hmeasured : s.arena.Measured id := fun other m _ hm => hranked.measures other m hm
    exact ⟨text, htext, (Arena.text_of_agreesBelow (agreesBelow_run hlater hget)).trans htext,
      hmeasured.width_eq hspelled hget htext⟩

/-- A gap that is never filled does no harm: the node over it keeps its text and its width, and so
does one that is built over that node. -/
theorem text_lasts_until_gap_is_filled_beside_open_gap :
    let before : List Action := [.request (.token ⟨12⟩ "b"), .request (.list [⟨0⟩, ⟨52⟩])]
    let later : List Action := [.request (.token ⟨10⟩ "a"), .onCache .clear]
    let key : NodeKey := ⟨⟨20⟩, .present, [some ⟨31⟩]⟩
    let start := ofCache 1 (.ofBits 4)
    let s := start.run before
    let t := s.run later
    start.Obeys Action.keepsGaps before ∧ s.Obeys Action.keepsGaps later ∧
      t.arena.contains ⟨0⟩ = false ∧ s.arena.Measured ⟨31⟩ ∧ t.arena.Measured ⟨31⟩ ∧
      (∃ n, s.arena.get? ⟨31⟩ = some n ∧ t.arena.get? ⟨31⟩ = some n ∧
        n.children = [⟨0⟩, ⟨52⟩] ∧ n.width = 1) ∧
      (∃ text, s.text ⟨31⟩ = .ok text ∧ t.text ⟨31⟩ = .ok text ∧ text.utf8ByteSize = 1) ∧
      ∃ id arena, s.arena.store (assemble s.arena key) = .ok (id, arena) ∧ arena.Measured id := by
  intro before later key start s t
  obtain ⟨hkept, hlasts, -, hbuilt, hall⟩ :=
    text_lasts_until_gap_is_filled 1 (.ofBits 4) before later
  have hbefore : start.Obeys Action.keepsGaps before := by decide +kernel
  have hlater : s.Obeys Action.keepsGaps later := by decide +kernel
  have hgap : t.arena.contains ⟨0⟩ = false := by decide +kernel
  obtain ⟨n, hget, hn⟩ := Option.map_eq_some_iff.mp
    (show (s.arena.get? ⟨31⟩).map (fun n => (n.children, n.width)) = some ([⟨0⟩, ⟨52⟩], 1) by
      decide +kernel)
  rw [Prod.mk.injEq] at hn
  obtain ⟨hchildren, hwidth⟩ := hn
  obtain ⟨rank, hranked⟩ := ranked_run 1 (.ofBits 4) hbefore
  have hmeasured : s.arena.Measured ⟨31⟩ := fun other m _ hm => hranked.measures other m hm
  have hbelow : ∀ other, s.arena.Below ⟨31⟩ other → other ∈ [⟨31⟩, ⟨0⟩, NodeId.mk 52] := by
    intro other hother
    have hclosed : ∀ id ∈ [⟨31⟩, ⟨0⟩, NodeId.mk 52], ∀ m ∈ s.arena.get? id,
        ∀ child ∈ m.children, child ∈ [⟨31⟩, ⟨0⟩, NodeId.mk 52] := by decide +kernel
    exact hother.inherits _ (by simp) fun id m hm hid => hclosed id hid m hm
  have hopen : ∀ other, s.arena.Below ⟨31⟩ other → t.arena.contains other = true →
      s.arena.contains other = true := by
    intro other hother
    have hsame : ∀ id ∈ [⟨31⟩, ⟨0⟩, NodeId.mk 52], t.arena.contains id = true →
        s.arena.contains id = true := by decide +kernel
    exact hsame other (hbelow other hother)
  obtain ⟨text, htext, htext', hsize⟩ := hall hbefore hlater ⟨31⟩ n hget
  obtain ⟨⟨id, arena⟩, hstore, hid⟩ := Outcome.exists_of_passes
    (show Outcome.passes (s.arena.store (assemble s.arena key)) (fun stored =>
      decide (stored.1 ∉ [⟨31⟩, ⟨0⟩, NodeId.mk 52])) = true by decide +kernel)
  refine ⟨hbefore, hlater, hgap, hmeasured, (hlasts ⟨31⟩ hopen).2 hmeasured,
    ⟨n, hget, hkept ⟨31⟩ n hget, hchildren, hwidth⟩, ⟨text, htext, htext', ?_⟩, id, arena, hstore,
    hbuilt key id arena hstore ?_⟩
  · rw [hwidth] at hsize
    change 1 = min text.utf8ByteSize 4294967295 at hsize
    omega
  · intro child hchild
    rw [List.mem_singleton.mp hchild]
    exact ⟨hmeasured, fun hother => of_decide_eq_true hid (hbelow id hother)⟩

/-- A node is built over an id that is unknown. Then a token gets this id, and the text of the node
changes, while its width does not. -/
theorem text_changes_when_gap_is_filled :
    let s := (ofCache 1 (.ofBits 4)).run [.request (.defaultNode ⟨20⟩ [some ⟨37⟩])]
    let t := s.run [.request (.token ⟨10⟩ "a")]
    s.text ⟨44⟩ = .ok "" ∧ t.text ⟨44⟩ = .ok "a" ∧
      ∃ n, s.arena.get? ⟨44⟩ = some n ∧ t.arena.get? ⟨44⟩ = some n ∧ n.width = 0 := by
  intro s t
  obtain ⟨text, htext, heq⟩ := Outcome.exists_of_passes
    (show Outcome.passes (s.text ⟨44⟩) (· == "") = true by decide +kernel)
  obtain rfl : text = "" := beq_iff_eq.mp heq
  obtain ⟨text', htext', heq'⟩ := Outcome.exists_of_passes
    (show Outcome.passes (t.text ⟨44⟩) (· == "a") = true by decide +kernel)
  obtain rfl : text' = "a" := beq_iff_eq.mp heq'
  obtain ⟨n, hget, hwidth⟩ := Option.map_eq_some_iff.mp
    (show (s.arena.get? ⟨44⟩).map (·.width) = some 0 by decide +kernel)
  exact ⟨htext, htext', n, hget, extends_run s _ ⟨44⟩ n hget, hwidth⟩

end Store
end GreenTree
