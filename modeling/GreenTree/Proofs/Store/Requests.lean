import GreenTree.Proofs.Run
import GreenTree.Proofs.Store.Unfolding

/-!
# Requests and their ledger

A client asks a store for nodes and names earlier answers by their number. Between two requests it
may probe the cache or empty it. A ledger answers the same requests without any reuse: it has no
cache and no token table and writes down a new node for every request.
-/

namespace GreenTree

/-- A request for a node, in which other nodes are named by handles of type `ι`. -/
inductive Request (ι : Type) where
  | token (kind : Kind) (text : String)
  | flaggedToken (kind : Kind) (flags : Flags) (text : String)
  | missingToken (kind : Kind)
  | node (kind : Kind) (flags : Flags) (slots : List (Option ι))
  | defaultNode (kind : Kind) (slots : List (Option ι))
  | list (children : List ι)
  | diagnose (source : ι) (diagnostics : List Diagnostic)
  | annotate (source : ι) (annotations : List Marker)

namespace Request

variable {ι κ : Type}

def map (f : ι → κ) : Request ι → Request κ
  | token kind text => token kind text
  | flaggedToken kind flags text => flaggedToken kind flags text
  | missingToken kind => missingToken kind
  | node kind flags slots => node kind flags (slots.map (·.map f))
  | defaultNode kind slots => defaultNode kind (slots.map (·.map f))
  | list children => list (children.map f)
  | diagnose source diagnostics => diagnose (f source) diagnostics
  | annotate source annotations => annotate (f source) annotations

/-- The handles that a request names. -/
def ids : Request ι → List ι
  | token _ _ | flaggedToken _ _ _ | missingToken _ => []
  | node _ _ slots | defaultNode _ slots => slots.filterMap id
  | list children => children
  | diagnose source _ | annotate source _ => [source]

/-- The request without the numbers of its annotations. -/
def unnumbered : Request ι → Request ι
  | annotate source annotations => annotate source (annotations.map ({ · with number := 0 }))
  | request => request

/-- The text of a token is no longer than a node can be wide. -/
def TextFits : Request ι → Prop
  | token _ text | flaggedToken _ _ text => text.utf8ByteSize ≤ Limits.maxWidth.toNat
  | _ => True

instance : DecidablePred (TextFits : Request ι → Prop)
  | token _ text | flaggedToken _ _ text =>
    inferInstanceAs (Decidable (text.utf8ByteSize ≤ Limits.maxWidth.toNat))
  | missingToken _ | node _ _ _ | defaultNode _ _ | list _ | diagnose _ _ | annotate _ _ =>
    .isTrue trivial

theorem ids_unnumbered (request : Request ι) : request.unnumbered.ids = request.ids := by
  cases request <;> rfl

theorem textFits_unnumbered (request : Request ι) :
    request.unnumbered.TextFits ↔ request.TextFits := by
  cases request <;> rfl

theorem forall_textFits_map_unnumbered (requests : List (Request ι)) :
    (∀ request ∈ requests.map unnumbered, request.TextFits) ↔
      ∀ request ∈ requests, request.TextFits := by
  simp only [List.forall_mem_map, textFits_unnumbered]

/-- Every request names earlier answers only; `count` answers were there before the first. -/
def Scoped (count : ℕ) : List (Request ℕ) → Prop
  | [] => True
  | request :: rest => (∀ i ∈ request.ids, i < count) ∧ Scoped (count + 1) rest

instance decidableScoped : (count : ℕ) → (requests : List (Request ℕ)) →
    Decidable (Scoped count requests)
  | _, [] => .isTrue trivial
  | count, request :: rest =>
    have := decidableScoped (count + 1) rest
    inferInstanceAs (Decidable ((∀ i ∈ request.ids, i < count) ∧ Scoped (count + 1) rest))

theorem Scoped.ids_lt {count : ℕ} {earlier later : List (Request ℕ)} {request : Request ℕ}
    (h : Scoped count (earlier ++ request :: later)) :
    ∀ i ∈ request.ids, i < count + earlier.length := by
  induction earlier generalizing count with
  | nil => exact h.1
  | cons first earlier ih =>
    rw [List.length_cons, Nat.add_comm earlier.length, ← Nat.add_assoc]
    exact ih h.2

theorem scoped_map_unnumbered (count : ℕ) (requests : List (Request ℕ)) :
    Scoped count (requests.map unnumbered) ↔ Scoped count requests := by
  induction requests generalizing count with
  | nil => rfl
  | cons request rest ih => simp only [List.map_cons, Scoped, ids_unnumbered, ih]

end Request

/-- The operation that a request stands for. -/
def Store.answer (s : Store) : Request NodeId → Except Fault (NodeId × Store)
  | .token kind text => s.token kind .present text
  | .flaggedToken kind flags text => s.token kind flags text
  | .missingToken kind => s.missingToken kind
  | .node kind flags slots => s.node kind flags slots
  | .defaultNode kind slots => s.node kind .present slots
  | .list children => s.list children
  | .diagnose source diagnostics => s.withDiagnostics source diagnostics
  | .annotate source annotations => s.withAnnotations source annotations

/-- The store after a call of its cache. -/
def Store.serve (s : Store) (call : Cache.Call) : Store :=
  { s with cache := s.cache.serve s.arena call }

/-- A store and the handles it has answered with so far. -/
structure Client where
  store : Store
  handles : List NodeId

namespace Client

/-- What a client may do at any point: ask for a node, or probe the cache or empty it. -/
abbrev Call := Action (Request ℕ) { call : Cache.Call // call.isOffer = false }

/-- A client of a new store. -/
def start (instanceNumber sizeBits : ℕ) : Client :=
  ⟨.ofCache instanceNumber (.ofBits sizeBits), []⟩

/-- The handle with this number. -/
def handle (c : Client) (i : ℕ) : NodeId := c.handles.getD i .nowhere

/-- A request in which earlier answers are named by their number. -/
def answer (c : Client) (asked : Request ℕ) : Except Fault (NodeId × Client) := do
  let (id, store) ← c.store.answer (asked.map c.handle)
  pure (id, ⟨store, c.handles ++ [id]⟩)

def serve (c : Client) (call : { call : Cache.Call // call.isOffer = false }) : Client :=
  { c with store := c.store.serve call.val }

def act : Client → Call → Except Fault (Option NodeId × Client) := Action.perform answer serve

/-- All calls, or those before the first that is stopped by a fault. -/
def run (c : Client) (calls : List Call) : Client := Run.last act c calls

/-- The requests that such a run has served. -/
def served (c : Client) (calls : List Call) : List (Request ℕ) :=
  Action.requests ((Run.steps act c calls).map Step.action)

theorem served_isPrefix (c : Client) (calls : List Call) :
    c.served calls <+: Action.requests calls :=
  Action.requests_isPrefix (Run.actions_isPrefix act c calls)

variable {c c' : Client} {asked : Request ℕ} {id : NodeId}

theorem answer_eq_ok (h : c.answer asked = .ok (id, c')) :
    ∃ s, c.store.answer (asked.map c.handle) = .ok (id, s) ∧ c' = ⟨s, c.handles ++ [id]⟩ := by
  rw [answer, Outcome.bind_eq_ok_iff] at h
  obtain ⟨⟨id, s⟩, hanswer, h⟩ := h
  cases h
  exact ⟨s, hanswer, rfl⟩

theorem answer_of_answer {s : Store} (h : c.store.answer (asked.map c.handle) = .ok (id, s)) :
    c.answer asked = .ok (id, ⟨s, c.handles ++ [id]⟩) := by
  rw [answer, h]
  rfl

end Client

namespace Label

def token (kind : Kind) (flags : Flags) (text : String) : Label where
  kind := kind
  flags := flags
  width := UInt32.ofNat text.utf8ByteSize
  text := some text
  diagnostics := none
  annotations := none

/-- The label of a node over nodes with these labels. -/
def interior (kind : Kind) (flags : Flags) (below : List Label) : Label where
  kind := kind
  flags := below.foldl (fun sum label => sum ||| label.flags.inherited) flags
  width := below.foldl (fun sum label => Offset.cappedSum sum label.width) 0
  text := none
  diagnostics := none
  annotations := none

def diagnose (label : Label) (diagnostics : List Diagnostic) : Label :=
  { label with
    flags := label.flags ||| (.hasDiagnostics ||| .containsDiagnostics)
    diagnostics := some diagnostics }

def annotate (label : Label) (annotations : List Marker) : Label :=
  { label with
    flags := label.flags ||| (.hasAnnotations ||| .containsAnnotations)
    annotations := some (annotations.map fun m => (m.kind, m.data)) }

end Label

/-- A node of a ledger. Its slots hold positions in the ledger. -/
structure Record where
  label : Label
  slots : List (Option ℕ)

/-- A store without reuse: the nodes made so far, one for every request. -/
structure Ledger where
  records : List Record

namespace Ledger

/-- The labels at these positions. -/
def labels (l : Ledger) (positions : List ℕ) : List Label :=
  positions.filterMap fun i => l.records[i]?.map Record.label

def interior (l : Ledger) (kind : Kind) (flags : Flags) (slots : List (Option ℕ)) : Record :=
  ⟨.interior kind flags (l.labels (slots.filterMap id)), slots⟩

/-- The node that a request asks for, unless it asks for a copy of an unknown one. -/
def record? (l : Ledger) : Request ℕ → Option Record
  | .token kind text => some ⟨.token kind (.ofToken .present) text, []⟩
  | .flaggedToken kind flags text => some ⟨.token kind flags.ofToken text, []⟩
  | .missingToken kind => some ⟨.token kind .none "", []⟩
  | .node kind flags slots => some (l.interior kind flags.undecorated slots)
  | .defaultNode kind slots => some (l.interior kind (.undecorated .present) slots)
  | .list children => some (l.interior .list (.undecorated .present) (children.map some))
  | .diagnose source diagnostics =>
    l.records[source]?.map fun record => { record with label := record.label.diagnose diagnostics }
  | .annotate source annotations =>
    l.records[source]?.map fun record => { record with label := record.label.annotate annotations }

/-- The ledger with the node that a request asks for. -/
def enter (l : Ledger) (request : Request ℕ) : Ledger :=
  ⟨l.records ++ (l.record? request).toList⟩

/-- The ledger of these requests. -/
def ofRequests (requests : List (Request ℕ)) : Ledger := requests.foldl enter ⟨[]⟩

/-- A ledger as a layer of nodes. -/
def layer (l : Ledger) : Tree.Layer ℕ := fun i =>
  l.records[i]?.map fun record => (record.label, record.slots)

/-- The slots of every node refer to earlier nodes. -/
def Scoped (l : Ledger) : Prop :=
  ∀ i (record : Record), l.records[i]? = some record →
    ∀ child, some child ∈ record.slots → child < i

theorem record?_unnumbered (l : Ledger) (request : Request ℕ) :
    l.record? request.unnumbered = l.record? request := by
  cases request with
  | annotate source annotations =>
    simp only [Request.unnumbered, record?, Label.annotate, List.map_map, Function.comp_def]
  | _ => rfl

theorem foldl_enter_unnumbered (l : Ledger) (requests : List (Request ℕ)) :
    (requests.map Request.unnumbered).foldl enter l = requests.foldl enter l := by
  induction requests generalizing l with
  | nil => rfl
  | cons request rest ih =>
    rw [List.map_cons, List.foldl_cons, List.foldl_cons, ih, enter, record?_unnumbered, enter]

theorem prefix_foldl_enter (l : Ledger) (requests : List (Request ℕ)) :
    l.records <+: (requests.foldl enter l).records := by
  induction requests generalizing l with
  | nil => exact List.prefix_rfl
  | cons request rest ih => exact (List.prefix_append _ _).trans (ih (l.enter request))

variable {l : Ledger}

/-- A request that names earlier nodes is answered by a node over earlier nodes. -/
theorem exists_record {request : Request ℕ} (hl : l.Scoped)
    (hids : ∀ i ∈ request.ids, i < l.records.length) :
    ∃ record, l.record? request = some record ∧
      ∀ child, some child ∈ record.slots → child < l.records.length := by
  have hslots : ∀ slots : List (Option ℕ), (∀ i ∈ slots.filterMap id, i < l.records.length) →
      ∀ child, some child ∈ slots → child < l.records.length := by
    intro slots h child hchild
    exact h child (List.mem_filterMap.mpr ⟨some child, hchild, rfl⟩)
  have hsource : ∀ source < l.records.length, ∃ record, l.records[source]? = some record ∧
      ∀ child, some child ∈ record.slots → child < l.records.length := by
    intro source hlt
    refine ⟨l.records[source], List.getElem?_eq_getElem hlt, ?_⟩
    intro child hchild
    exact (hl source _ (List.getElem?_eq_getElem hlt) child hchild).trans hlt
  cases request with
  | token kind text => exact ⟨_, rfl, by simp⟩
  | flaggedToken kind flags text => exact ⟨_, rfl, by simp⟩
  | missingToken kind => exact ⟨_, rfl, by simp⟩
  | node kind flags slots => exact ⟨_, rfl, hslots slots hids⟩
  | defaultNode kind slots => exact ⟨_, rfl, hslots slots hids⟩
  | list children =>
    refine ⟨_, rfl, hslots (children.map some) ?_⟩
    simpa [Request.ids, List.filterMap_map] using hids
  | diagnose source diagnostics =>
    obtain ⟨record, hrecord, hchildren⟩ := hsource source (hids source (List.mem_singleton_self _))
    refine ⟨{ record with label := record.label.diagnose diagnostics }, ?_, hchildren⟩
    rw [record?, hrecord, Option.map_some]
  | annotate source annotations =>
    obtain ⟨record, hrecord, hchildren⟩ := hsource source (hids source (List.mem_singleton_self _))
    refine ⟨{ record with label := record.label.annotate annotations }, ?_, hchildren⟩
    rw [record?, hrecord, Option.map_some]

theorem Scoped.append (hl : l.Scoped) {record : Record}
    (h : ∀ child, some child ∈ record.slots → child < l.records.length) :
    Scoped ⟨l.records ++ [record]⟩ := by
  intro i other hother child hchild
  obtain hlt | rfl | hgt := lt_trichotomy i l.records.length
  · rw [List.getElem?_append_left hlt] at hother
    exact hl i other hother child hchild
  · rw [List.getElem?_concat_length, Option.some.injEq] at hother
    subst hother
    exact h child hchild
  · rw [List.getElem?_eq_none (by simpa using hgt)] at hother
    cases hother

theorem scoped_foldl_enter {requests : List (Request ℕ)} (hl : l.Scoped)
    (h : Request.Scoped l.records.length requests) :
    (requests.foldl enter l).Scoped ∧
      (requests.foldl enter l).records.length = l.records.length + requests.length := by
  induction requests generalizing l with
  | nil => exact ⟨hl, rfl⟩
  | cons request rest ih =>
    obtain ⟨record, hrecord, hchildren⟩ := exists_record hl h.1
    have henter : l.enter request = ⟨l.records ++ [record]⟩ := by
      rw [enter, hrecord]
      rfl
    have hlength : (l.enter request).records.length = l.records.length + 1 := by
      rw [henter, List.length_append, List.length_singleton]
    have hrest := ih (l := l.enter request) (henter ▸ hl.append hchildren) (hlength ▸ h.2)
    rw [hlength, Nat.add_assoc, Nat.add_comm 1] at hrest
    exact hrest

theorem scoped_ofRequests {requests : List (Request ℕ)} (h : Request.Scoped 0 requests) :
    (ofRequests requests).Scoped ∧ (ofRequests requests).records.length = requests.length := by
  have hempty : Scoped ⟨[]⟩ := by simp [Scoped]
  obtain ⟨hscoped, hlength⟩ := scoped_foldl_enter hempty h
  exact ⟨hscoped, hlength.trans (Nat.zero_add _)⟩

/-- Every position in the ledger of scoped requests stands for a tree. -/
theorem exists_unfolds {requests : List (Request ℕ)} (h : Request.Scoped 0 requests) {i : ℕ}
    (hi : i < requests.length) : ∃ tree, Tree.Unfolds (ofRequests requests).layer i tree := by
  obtain ⟨hscoped, hlength⟩ := scoped_ofRequests h
  refine Tree.exists_unfolds ?_ hi
  intro j hj
  have hrecord := List.getElem?_eq_getElem (hlength.symm ▸ hj)
  refine ⟨(ofRequests requests).records[j].label, _, ?_, hscoped j _ hrecord⟩
  rw [layer, hrecord, Option.map_some]

end Ledger
end GreenTree
