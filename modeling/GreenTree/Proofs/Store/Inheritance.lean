import GreenTree.Proofs.Store.Cleanliness
import GreenTree.Proofs.Store.Replies

/-!
# Flags that tell of a tree

A node has flags of its own, which come from the request for it, and takes over flags of its
children. Diagnostics and annotations are set on copies only, so the flags for them tell which node
was copied to carry some, and whether there is such a node in the tree below.
-/

namespace GreenTree

/-- What can be set on a copy of a node. -/
inductive Decoration where
  | diagnostics
  | annotations
  deriving DecidableEq

namespace Decoration

/-- Tells that it is set on the node. -/
def ownFlag : Decoration → Flags
  | diagnostics => .hasDiagnostics
  | annotations => .hasAnnotations

/-- Tells that it is set on a node of the tree. -/
def treeFlag : Decoration → Flags
  | diagnostics => .containsDiagnostics
  | annotations => .containsAnnotations

/-- Whether it is set on the node, if only to an empty list. -/
def isSet : Decoration → Node → Bool
  | diagnostics, n => n.diagnostics.isSome
  | annotations, n => n.annotations.isSome

theorem atomic_ownFlag (d : Decoration) : d.ownFlag.Atomic := by
  cases d with
  | diagnostics => exact Flags.atomic_hasDiagnostics
  | annotations => exact Flags.atomic_hasAnnotations

theorem atomic_treeFlag (d : Decoration) : d.treeFlag.Atomic := by
  cases d with
  | diagnostics => exact Flags.atomic_containsDiagnostics
  | annotations => exact Flags.atomic_containsAnnotations

end Decoration

namespace Request

variable {ι : Type}

/-- The node to be copied and what the copy is to carry. -/
def copy? : Request ι → Option (ι × Decoration)
  | diagnose source _ => some (source, .diagnostics)
  | annotate source _ => some (source, .annotations)
  | token _ _ | flaggedToken _ _ _ | missingToken _ | node _ _ _ | defaultNode _ _ | list _ => none

/-- The flags passed for a node that is not a copy. -/
def flags? : Request ι → Option Flags
  | flaggedToken _ flags _ | node _ flags _ => some flags
  | token _ _ | defaultNode _ _ | list _ => some .present
  | missingToken _ => some .none
  | diagnose _ _ | annotate _ _ => none

/-- The request without decoration among its flags. -/
def plain : Request ι → Request ι
  | flaggedToken kind flags text => flaggedToken kind (flags \ .decoration) text
  | node kind flags slots => node kind (flags \ .decoration) slots
  | request => request

theorem flags?_or_copy? (asked : Request ι) :
    (∃ flags, asked.flags? = some flags) ∨ ∃ source d, asked.copy? = some (source, d) := by
  cases asked with
  | diagnose source _ => exact .inr ⟨source, .diagnostics, rfl⟩
  | annotate source _ => exact .inr ⟨source, .annotations, rfl⟩
  | _ => exact .inl ⟨_, rfl⟩

end Request

/-- The event without decoration among the flags of a request. -/
def Event.plain : Event → Event
  | .request asked => .request asked.plain
  | .onCache change => .onCache change

/-- The reply as it is given to the request without decoration among its flags. -/
def Reply.plain (r : Reply) : Reply := { r with asked := r.asked.plain }

/-- The request was answered with the id, or with one of which the id is a copy. -/
inductive Behind (replies : List Reply) : NodeId → Request NodeId → Prop
  | answered {r : Reply} (hr : r ∈ replies) (hknown : r.after.arena.contains r.id = true) :
      Behind replies r.id r.asked
  | copied {r : Reply} {source : NodeId} {d : Decoration} {asked : Request NodeId}
      (hr : r ∈ replies) (hcopy : r.asked.copy? = some (source, d))
      (hsource : r.before.arena.contains source = true) (hbehind : Behind replies source asked) :
      Behind replies r.id asked

theorem Behind.of_subset {replies more : List Reply} (hmore : replies ⊆ more) {id : NodeId}
    {asked : Request NodeId} (h : Behind replies id asked) : Behind more id asked := by
  induction h with
  | answered hr hknown => exact .answered (hmore hr) hknown
  | copied hr hcopy hsource _ ih => exact .copied (hmore hr) hcopy hsource ih

namespace Flags

theorem isDecorated_undecorated (f : Flags) : f.undecorated.isDecorated = false := by
  have hplain : f.undecorated &&& decoration = none := and_and_eq_none f (by decide)
  simp [isDecorated, meets, hplain]

theorem not_includes_of_not_isDecorated {f : Flags} (h : f.isDecorated = false) (d : Decoration) :
    f.includes d.ownFlag = false ∧ f.includes d.treeFlag = false := by
  simp only [← Bool.not_eq_true, d.atomic_ownFlag.includes_iff_meets,
    d.atomic_treeFlag.includes_iff_meets]
  rw [← Bool.not_eq_true, isDecorated, decoration, meets_or_iff, meets_or_iff, meets_or_iff] at h
  cases d <;> simp only [Decoration.ownFlag, Decoration.treeFlag] <;> tauto

theorem sdiff_undecorated (f : Flags) : (f \ decoration).undecorated = f.undecorated := by
  have hmask : ~~~decoration.bits &&& (~~~decoration).bits = (~~~decoration).bits := by decide
  apply congrArg Flags.mk
  change f.bits &&& ~~~decoration.bits &&& (~~~decoration).bits = f.bits &&& (~~~decoration).bits
  rw [UInt16.and_assoc, hmask]

theorem includes_skipped_undecorated (f : Flags) :
    f.undecorated.includes containsSkippedText = f.includes containsSkippedText :=
  and_includes_of_within f (by decide)

theorem includes_skipped_ofToken (f : Flags) :
    f.ofToken.includes containsSkippedText = f.includes containsSkippedText := by
  rw [Bool.eq_iff_iff, ofToken, atomic_containsSkippedText.or_includes_iff,
    includes_skipped_undecorated]
  simp [show present.includes containsSkippedText = false by decide]

end Flags

theorem Store.answer_plain (s : Store) (asked : Request NodeId) :
    s.answer asked.plain = s.answer asked := by
  cases asked with
  | flaggedToken kind flags text =>
    simp only [Request.plain, answer, token, Flags.ofToken, Flags.sdiff_undecorated]
  | node kind flags slots => simp only [Request.plain, answer, node, Flags.sdiff_undecorated]
  | _ => rfl

/-- Decoration among the flags of requests has no influence on a run. -/
theorem Store.attend_plain (s : Store) (events : List Event) :
    s.attend (events.map Event.plain) =
      ((s.attend events).1.map Reply.plain, (s.attend events).2) := by
  have hsame : ∀ s event, undergo s (Event.plain event) = undergo s event := by
    intro s event
    cases event with
    | request asked => simp only [undergo, Event.plain, Action.perform, answer_plain]
    | onCache change => rfl
  have hreply : ∀ r : Step Store Event (Option NodeId),
      Step.reply? { r with action := Event.plain r.action } = r.reply?.map Reply.plain := by
    rintro ⟨before, asked | change, _ | id, after⟩ <;> rfl
  obtain ⟨hsteps, hlast⟩ := Run.run_map hsame s events
  rw [attend, attend, hsteps, hlast, List.filterMap_map, List.map_filterMap]
  simp only [Function.comp_def, hreply]

namespace Node

variable {n m : Node} {flags : Flags} {nodes : List Node} {g : Flags} {arena after : Arena}
  {d d' : Decoration}

theorem includes_flagsOver_iff (hg : g.Atomic) (hwithin : Flags.inheritance &&& g = g) :
    (flagsOver flags nodes).includes g = true ↔
      flags.includes g = true ∨ ∃ m ∈ nodes, m.flags.includes g = true := by
  induction nodes generalizing flags with
  | nil => simp [flagsOver]
  | cons n rest ih =>
    have hpassed : n.flags.inherited.includes g = n.flags.includes g :=
      Flags.and_includes_of_within _ hwithin
    rw [flagsOver, List.foldl_cons, ← flagsOver, ih, hg.or_includes_iff, hpassed, or_assoc,
      List.exists_mem_cons_iff]

theorem includes_flagsOver_of_disjoint (hg : g.Atomic)
    (hdisjoint : Flags.inheritance &&& g = .none) :
    (flagsOver flags nodes).includes g = flags.includes g := by
  induction nodes generalizing flags with
  | nil => rfl
  | cons n rest ih =>
    have hkept : n.flags.inherited.includes g = false :=
      Flags.and_includes_of_disjoint _ hg.ne_none hdisjoint
    rw [flagsOver, List.foldl_cons, ← flagsOver, ih, Bool.eq_iff_iff, hg.or_includes_iff, hkept]
    simp

/-- The node has flags of its own without decoration, which tell of skipped text just as the flags
passed for it do, and those that its children pass up. -/
structure Collects (n : Node) (arena : Arena) (flags : Flags) : Prop where
  flags : ∃ own : Flags, n.flags = flagsOver own (arena.known n.children) ∧
    own.isDecorated = false ∧
    own.includes .containsSkippedText = flags.includes .containsSkippedText
  bare : ∀ d : Decoration, d.isSet n = false

/-- The node is like another one but for a decoration that it carries. -/
structure Decorates (n m : Node) (d : Decoration) : Prop where
  flags : n.flags = m.flags ||| (d.ownFlag ||| d.treeFlag)
  children : n.children = m.children
  isSet : ∀ d' : Decoration, d'.isSet n = true ↔ d' = d ∨ d'.isSet m = true

/-- The flags of the node tell whether a decoration is set on it, and whether it is set there or the
flags of a child say that it is set further below. -/
structure Signals (n : Node) (arena : Arena) (d : Decoration) : Prop where
  own : n.flags.includes d.ownFlag = true ↔ d.isSet n = true
  tree : n.flags.includes d.treeFlag = true ↔
    d.isSet n = true ∨ ∃ m ∈ arena.known n.children, m.flags.includes d.treeFlag = true

theorem decorates_diagnose (n : Node) (diagnostics : List Diagnostic) :
    (n.diagnose diagnostics).Decorates n .diagnostics where
  flags := rfl
  children := rfl
  isSet d := by cases d <;> simp [Decoration.isSet, diagnose, flag]

theorem decorates_annotate (n : Node) (annotations : List Marker) :
    (n.annotate annotations).Decorates n .annotations where
  flags := rfl
  children := rfl
  isSet d := by cases d <;> simp [Decoration.isSet, annotate, flag]

theorem Collects.skipped_iff (h : n.Collects arena flags) :
    n.flags.includes .containsSkippedText = true ↔
      flags.includes .containsSkippedText = true ∨
        ∃ m ∈ arena.known n.children, m.flags.includes .containsSkippedText = true := by
  obtain ⟨own, hflags, -, hskipped⟩ := h.flags
  rw [hflags, includes_flagsOver_iff Flags.atomic_containsSkippedText (by decide), hskipped]

theorem Collects.signals (h : n.Collects arena flags) (d : Decoration) : n.Signals arena d := by
  obtain ⟨own, hflags, hplain, -⟩ := h.flags
  obtain ⟨hown, htree⟩ := Flags.not_includes_of_not_isDecorated hplain d
  constructor
  · rw [hflags, includes_flagsOver_of_disjoint d.atomic_ownFlag (by cases d <;> decide), hown,
      h.bare d]
  · rw [hflags, includes_flagsOver_iff d.atomic_treeFlag (by cases d <;> decide), htree, h.bare d]

theorem Decorates.skipped_eq (h : n.Decorates m d) :
    n.flags.includes .containsSkippedText = m.flags.includes .containsSkippedText := by
  have hdecoration : (d.ownFlag ||| d.treeFlag).includes .containsSkippedText = false := by
    cases d <;> decide
  rw [Bool.eq_iff_iff, h.flags, Flags.atomic_containsSkippedText.or_includes_iff, hdecoration]
  simp

theorem Decorates.signals (h : n.Decorates m d) (hm : m.Signals arena d') : n.Signals arena d' := by
  have hown : (d.ownFlag ||| d.treeFlag).includes d'.ownFlag = true ↔ d' = d := by
    cases d <;> cases d' <;> decide
  have htree : (d.ownFlag ||| d.treeFlag).includes d'.treeFlag = true ↔ d' = d := by
    cases d <;> cases d' <;> decide
  constructor
  · rw [h.flags, d'.atomic_ownFlag.or_includes_iff, hown, hm.own, h.isSet, or_comm]
  · rw [h.flags, d'.atomic_treeFlag.or_includes_iff, htree, hm.tree, h.isSet, h.children,
      or_comm, ← or_assoc]

theorem Signals.of_extends (h : n.Signals arena d) (hafter : arena.Extends after)
    (hn : n.Founded arena) : n.Signals after d where
  own := h.own
  tree := by rw [Arena.known_of_extends hafter hn.known, h.tree]

end Node

theorem Request.exists_change_of_copy? {asked : Request NodeId} {source : NodeId} {d : Decoration}
    (h : asked.copy? = some (source, d)) :
    ∃ change : Node → Node, (∀ n, (change n).Decorates n d) ∧
      (∀ arena : Arena, arena.node? asked = (arena.get? source).map change) ∧
      ∀ s : Store, s.answer asked = s.copyWith source change := by
  cases asked with
  | diagnose source diagnostics =>
    cases h
    exact ⟨_, (·.decorates_diagnose diagnostics), fun _ => rfl, fun _ => rfl⟩
  | annotate source annotations =>
    cases h
    exact ⟨_, (·.decorates_annotate annotations), fun _ => rfl, fun _ => rfl⟩
  | _ => cases h

namespace Arena

variable {arena : Arena} {asked : Request NodeId} {n : Node} {flags : Flags} {d : Decoration}
  {source id : NodeId}

theorem collects_of_token {kind : Kind} {own : Flags} {text : String}
    (hn : (Node.token kind own text).toOption = some n) (hplain : own.isDecorated = false)
    (hskipped : own.includes .containsSkippedText = flags.includes .containsSkippedText) :
    n.Collects arena flags := by
  have htoken := Node.token_of_toOption hn
  rw [Node.token] at htoken
  split_ifs at htoken
  cases htoken
  exact ⟨⟨own, rfl, hplain, hskipped⟩, fun d => by cases d <;> rfl⟩

theorem collects_assemble (kind : Kind) (flags : Flags) (slots : List (Option NodeId)) :
    (Store.assemble arena ⟨kind, flags.undecorated, slots⟩).Collects arena flags := by
  rw [Store.assemble_eq]
  refine ⟨⟨flags.undecorated, rfl, flags.isDecorated_undecorated,
    flags.includes_skipped_undecorated⟩, ?_⟩
  intro d
  cases d <;> rfl

/-- The node for a request that passes flags collects them and those of its children. -/
theorem collects_of_flags? (hflags : asked.flags? = some flags)
    (hn : arena.node? asked = some n) : n.Collects arena flags := by
  cases asked with
  | token kind text =>
    cases hflags
    exact collects_of_token hn (Flags.isDecorated_ofToken _) (Flags.includes_skipped_ofToken _)
  | flaggedToken kind flags text =>
    cases hflags
    exact collects_of_token hn (Flags.isDecorated_ofToken _) (Flags.includes_skipped_ofToken _)
  | missingToken kind =>
    cases hflags
    change (Node.token kind .none "").toOption = some n at hn
    exact collects_of_token hn (by decide) rfl
  | node kind flags slots =>
    cases hflags
    cases hn
    exact collects_assemble kind flags slots
  | defaultNode kind slots =>
    cases hflags
    cases hn
    exact collects_assemble kind .present slots
  | list children =>
    cases hflags
    cases hn
    exact collects_assemble .list .present _
  | diagnose _ _ | annotate _ _ => cases hflags

/-- The node for a request for a copy decorates the one to be copied. -/
theorem decorates_of_copy? (hcopy : asked.copy? = some (source, d))
    (hn : arena.node? asked = some n) : ∃ m, arena.get? source = some m ∧ n.Decorates m d := by
  obtain ⟨change, hchange, hnode, -⟩ := Request.exists_change_of_copy? hcopy
  rw [hnode] at hn
  obtain ⟨m, hm, rfl⟩ := Option.map_eq_some_iff.mp hn
  exact ⟨m, hm, hchange m⟩

/-- In a grounded arena of nodes that signal a decoration, the flag of a tree tells of the tree. -/
theorem Grounded.treeFlag_iff {rank : NodeId → ℕ} (h : arena.Grounded rank)
    (hsignals : ∀ id n, arena.get? id = some n → n.Signals arena d)
    (hget : arena.get? id = some n) :
    n.flags.includes d.treeFlag = true ↔
      ∃ other m, arena.Below id other ∧ arena.get? other = some m ∧ d.isSet m = true := by
  constructor
  · intro hflag
    -- The flag is followed downwards until it is that of the node itself.
    induction hrank : rank id using Nat.strong_induction_on generalizing id n with
    | _ bound ih =>
      obtain hset | ⟨m, hm, hmflag⟩ := (hsignals id n hget).tree.mp hflag
      · exact ⟨id, n, .self id, hget, hset⟩
      · obtain ⟨child, hchild, hmget⟩ := List.mem_filterMap.mp hm
        obtain ⟨other, k, hbelow, hk⟩ :=
          ih _ (hrank ▸ h.lower id n hget child hchild) hmget hmflag rfl
        exact ⟨other, k, .child hget hchild hbelow, hk⟩
  · rintro ⟨other, m, hbelow, hm, hset⟩
    induction hbelow generalizing n with
    | self id =>
      rw [hget, Option.some.injEq] at hm
      subst hm
      exact (hsignals id n hget).tree.mpr (.inl hset)
    | child hget' hchild _ ih =>
      rw [hget, Option.some.injEq] at hget'
      subst hget'
      obtain ⟨k, hk⟩ := (h.founded _ n hget).known _ hchild
      refine (hsignals _ n hget).tree.mpr (.inr ⟨k, ?_, ih hk hm⟩)
      exact List.mem_filterMap.mpr ⟨_, hchild, hk⟩

end Arena

/-- What the replies so far tell of a node: its flags signal every decoration, a decoration that is
set was asked for in making it, and so was a node with some flags. -/
structure Node.Traced (n : Node) (replies : List Reply) (arena : Arena) (id : NodeId) : Prop where
  signals : ∀ d, n.Signals arena d
  decorated : ∀ d : Decoration, d.isSet n = true →
    ∃ asked source, Behind replies id asked ∧ asked.copy? = some (source, d)
  flagged : ∃ asked flags, Behind replies id asked ∧ asked.flags? = some flags

namespace Node.Traced

variable {n : Node} {replies more : List Reply} {arena after : Arena} {id : NodeId}

theorem of_extends (h : n.Traced replies arena id) (hmore : replies ⊆ more)
    (hafter : arena.Extends after) (hn : n.Founded arena) : n.Traced more after id where
  signals d := (h.signals d).of_extends hafter hn
  decorated d hset := by
    obtain ⟨asked, source, hbehind, hcopy⟩ := h.decorated d hset
    exact ⟨asked, source, hbehind.of_subset hmore, hcopy⟩
  flagged := by
    obtain ⟨asked, flags, hbehind, hflags⟩ := h.flagged
    exact ⟨asked, flags, hbehind.of_subset hmore, hflags⟩

/-- A node can be traced when it is stored, if those before it can. -/
theorem of_stores {r : Reply} (hr : r ∈ replies) (hn : r.Stores n)
    (h : ∀ id m, r.before.arena.get? id = some m → m.Traced replies r.before.arena id) :
    n.Traced replies r.before.arena r.id := by
  have hanswered : Behind replies r.id r.asked :=
    .answered hr (Option.isSome_iff_exists.mpr ⟨n, Arena.get?_stored hn.2⟩)
  obtain ⟨flags, hflags⟩ | ⟨source, d, hcopy⟩ := r.asked.flags?_or_copy?
  · have hcollects := Arena.collects_of_flags? hflags hn.1
    refine ⟨hcollects.signals, ?_, r.asked, flags, hanswered, hflags⟩
    intro d hset
    rw [hcollects.bare d] at hset
    cases hset
  · obtain ⟨m, hm, hdecorates⟩ := Arena.decorates_of_copy? hcopy hn.1
    have hcopied : ∀ {asked}, Behind replies source asked → Behind replies r.id asked :=
      .copied hr hcopy (Option.isSome_iff_exists.mpr ⟨m, hm⟩)
    have htraced := h source m hm
    refine ⟨fun d => hdecorates.signals (htraced.signals d), ?_, ?_⟩
    · intro d' hset
      obtain rfl | hset := (hdecorates.isSet d').mp hset
      · exact ⟨r.asked, source, hanswered, hcopy⟩
      · obtain ⟨asked, origin, hbehind, hasked⟩ := htraced.decorated d' hset
        exact ⟨asked, origin, hcopied hbehind, hasked⟩
    · obtain ⟨asked, flags, hbehind, hflags⟩ := htraced.flagged
      exact ⟨asked, flags, hcopied hbehind, hflags⟩

end Node.Traced

/-- A request that passes flags and is answered asks for a node. -/
theorem Store.exists_node?_of_answer {s s' : Store} {asked : Request NodeId} {flags : Flags}
    {id : NodeId} (hs : s.tokens.Coherent s.arena) (hflags : asked.flags? = some flags)
    (h : s.answer asked = .ok (id, s')) : ∃ n, s.arena.node? asked = some n := by
  have htoken : ∀ {kind flags text}, s.token kind flags text = .ok (id, s') →
      ∃ n, (Node.token kind flags.ofToken text).toOption = some n := by
    intro kind flags text h
    obtain ⟨-, n, hn, -⟩ := token_coherent hs h
    exact ⟨n, by rw [hn]; rfl⟩
  cases asked with
  | token kind text => exact htoken h
  | flaggedToken kind flags text => exact htoken h
  | missingToken kind => exact ⟨_, rfl⟩
  | node _ _ _ | defaultNode _ _ | list _ => exact ⟨_, rfl⟩
  | diagnose _ _ | annotate _ _ => cases hflags

namespace Reply

variable {r : Reply} {source : NodeId} {d : Decoration} {flags : Flags} {last : Arena} {n : Node}

/-- A copy that is known is one of a known node. -/
theorem contains_source (hcopy : r.asked.copy? = some (source, d))
    (h : r.before.answer r.asked = .ok (r.id, r.after))
    (hknown : r.after.arena.contains r.id = true) : r.before.arena.contains source = true := by
  obtain ⟨change, -, -, hanswer⟩ := Request.exists_change_of_copy? hcopy
  rw [hanswer] at h
  obtain ⟨hnone, hid, hafter⟩ | ⟨m, hm, -⟩ := Store.copyWith_cases h
  · rw [hid, hafter, Arena.contains, hnone] at hknown
    cases hknown
  · exact Option.isSome_iff_exists.mpr ⟨m, hm⟩

/-- A copy decorates what it is a copy of. -/
theorem decorates (hcopy : r.asked.copy? = some (source, d))
    (h : r.before.answer r.asked = .ok (r.id, r.after)) (hlater : r.after.arena.Extends last)
    (hsource : r.before.arena.contains source = true) (hget : last.get? r.id = some n) :
    ∃ m, last.get? source = some m ∧ n.Decorates m d := by
  have hextends := (Store.change_of_answer h).extends
  obtain ⟨m, hm⟩ := Option.isSome_iff_exists.mp hsource
  obtain ⟨change, hchange, -, hanswer⟩ := Request.exists_change_of_copy? hcopy
  rw [hanswer] at h
  obtain ⟨hnone, -, -⟩ | ⟨m', hm', hstore⟩ := Store.copyWith_cases h
  · rw [hm] at hnone
    cases hnone
  · rw [hm, Option.some.injEq] at hm'
    subst hm'
    rw [hlater _ _ (Store.stored_of_store hstore).2, Option.some.injEq] at hget
    subst hget
    exact ⟨m, hlater _ _ (hextends _ _ hm), hchange m⟩

/-- What is answered to a request that passes flags has skipped text if these say so or a child has,
whether it was built for this request or not. -/
theorem skipped_iff (hs : r.before.tokens.Coherent r.before.arena)
    (h : r.before.answer r.asked = .ok (r.id, r.after)) (hlater : r.after.arena.Extends last)
    (hground : ∃ rank, r.before.arena.Grounded rank) (hover : r.overKnown = true)
    (hflags : r.asked.flags? = some flags) (hget : last.get? r.id = some n) :
    n.flags.includes .containsSkippedText = true ↔ flags.includes .containsSkippedText = true ∨
      ∃ m ∈ last.known n.children, m.flags.includes .containsSkippedText = true := by
  obtain ⟨rank, hground⟩ := hground
  obtain ⟨m, hm⟩ := Store.exists_node?_of_answer hs hflags h
  obtain ⟨n', hn', hkey⟩ := Store.key_of_answer hs h hm
  rw [hlater _ _ hn', Option.some.injEq] at hget
  subst hget
  have hknown := (Arena.founded_of_node? hm hground.founded hover).known
  have hextends := (Store.change_of_answer h).extends.trans hlater
  have hskipped := (Arena.collects_of_flags? hflags hm).skipped_iff
  rw [← Arena.known_of_extends hextends hknown] at hskipped
  rw [Node.flags, Node.children, hkey]
  exact hskipped

end Reply

namespace Store

variable {asked : Request NodeId} {id source : NodeId} {n : Node} {flags : Flags} {d : Decoration}
  {replies : List Reply} {last : Arena}

/-- A decoration that was asked for in making a node is set. -/
theorem isSet_of_behind (hreplies : ∀ r ∈ replies,
      r.before.answer r.asked = .ok (r.id, r.after) ∧ r.after.arena.Extends last)
    (h : Behind replies id asked) (hcopy : asked.copy? = some (source, d))
    (hget : last.get? id = some n) : d.isSet n = true := by
  induction h generalizing n with
  | answered hr hknown =>
    obtain ⟨hanswer, hlater⟩ := hreplies _ hr
    have hsource := Reply.contains_source hcopy hanswer hknown
    obtain ⟨m, -, hdecorates⟩ := Reply.decorates hcopy hanswer hlater hsource hget
    exact (hdecorates.isSet d).mpr (.inl rfl)
  | copied hr hcopied hsource _ ih =>
    obtain ⟨hanswer, hlater⟩ := hreplies _ hr
    obtain ⟨m, hm, hdecorates⟩ := Reply.decorates hcopied hanswer hlater hsource hget
    exact (hdecorates.isSet d).mpr (.inr (ih hcopy hm))

/-- The flags that were passed for a node and the flags of its children tell of skipped text. -/
theorem skipped_iff_of_behind (hreplies : ∀ r ∈ replies, r.before.tokens.Coherent r.before.arena ∧
      r.before.answer r.asked = .ok (r.id, r.after) ∧ r.after.arena.Extends last ∧
      (∃ rank, r.before.arena.Grounded rank) ∧ r.overKnown = true)
    (h : Behind replies id asked) (hflags : asked.flags? = some flags)
    (hget : last.get? id = some n) :
    n.flags.includes .containsSkippedText = true ↔ flags.includes .containsSkippedText = true ∨
      ∃ m ∈ last.known n.children, m.flags.includes .containsSkippedText = true := by
  induction h generalizing n with
  | answered hr _ =>
    obtain ⟨hs, hanswer, hlater, hground, hover⟩ := hreplies _ hr
    exact Reply.skipped_iff hs hanswer hlater hground hover hflags hget
  | copied hr hcopied hsource _ ih =>
    obtain ⟨-, hanswer, hlater, -, -⟩ := hreplies _ hr
    obtain ⟨m, hm, hdecorates⟩ := Reply.decorates hcopied hanswer hlater hsource hget
    rw [hdecorates.skipped_eq, hdecorates.children]
    exact ih hflags hm

/-- Flags tell the truth about the tree. While only known ids are passed for children, the flags of
every node tell whether diagnostics or annotations are set on it, which is so exactly if they were
asked for in making it, and whether they are set on some node of its tree. They tell of skipped text
exactly if the flags passed for the node do or those of a child. Decoration that is passed among the
flags changes nothing. -/
theorem flags_tell_of_tree (instanceNumber : ℕ) (cache : Cache) {events : List Event}
    (hknown : ∀ r ∈ ((ofCache instanceNumber cache).attend events).1, r.overKnown = true) :
    let start := ofCache instanceNumber cache
    let replies := (start.attend events).1
    let last := (start.attend events).2
    (∀ id n, last.arena.get? id = some n →
      (∀ d : Decoration,
        (n.flags.includes d.ownFlag = true ↔ d.isSet n = true) ∧
        (d.isSet n = true ↔
          ∃ asked source, Behind replies id asked ∧ asked.copy? = some (source, d)) ∧
        (n.flags.includes d.treeFlag = true ↔ ∃ other m, last.arena.Below id other ∧
          last.arena.get? other = some m ∧ d.isSet m = true)) ∧
      (∃ asked flags, Behind replies id asked ∧ asked.flags? = some flags) ∧
      ∀ asked flags, Behind replies id asked → asked.flags? = some flags →
        (n.flags.includes .containsSkippedText = true ↔
          flags.includes .containsSkippedText = true ∨
            ∃ m ∈ last.arena.known n.children, m.flags.includes .containsSkippedText = true)) ∧
    start.attend (events.map Event.plain) = (replies.map Reply.plain, last) := by
  intro start replies last
  refine ⟨?_, attend_plain start events⟩
  have hspec := (attend_spec (tokens_coherent_ofCache instanceNumber cache) events).2
  obtain ⟨hgrounds, ⟨rank, hground⟩, htraced⟩ := attend_nodes instanceNumber cache
    (fun past arena id n => n.Traced past arena id)
    (fun _ _ _ _ _ _ hmore hafter hn h => h.of_extends hmore hafter hn)
    (fun _ _ _ hr hn _ h => .of_stores hr hn h) hknown
  intro id n hget
  have hn := htraced id n hget
  refine ⟨?_, hn.flagged, ?_⟩
  · intro d
    refine ⟨(hn.signals d).own, ⟨hn.decorated d, ?_⟩, hground.treeFlag_iff ?_ hget⟩
    · rintro ⟨asked, source, hbehind, hcopy⟩
      refine isSet_of_behind ?_ hbehind hcopy hget
      intro r hr
      obtain ⟨-, hanswer, hlater⟩ := hspec r hr
      exact ⟨hanswer, hlater.arena⟩
    · exact fun id m hm => (htraced id m hm).signals d
  · intro asked flags hbehind hflags
    refine skipped_iff_of_behind ?_ hbehind hflags hget
    intro r hr
    obtain ⟨hs, hanswer, hlater⟩ := hspec r hr
    exact ⟨hs, hanswer, hlater.arena, hgrounds r hr, hknown r hr⟩

/-- A node with skipped text is asked for twice, with different decoration among the flags, and is
copied with an empty list of diagnostics and then with one of annotations. A node is built over the
node and its copy. -/
theorem flags_tell_of_tree_over_copies :
    let events : List Event := [.request (.token ⟨10⟩ "a"),
      .request (.node ⟨20⟩ (.present ||| .containsSkippedText ||| .hasDiagnostics) [some ⟨37⟩]),
      .request (.node ⟨20⟩ (.present ||| .containsSkippedText ||| .containsAnnotations)
        [some ⟨37⟩]),
      .request (.diagnose ⟨53⟩ []), .request (.annotate ⟨49⟩ []),
      .request (.defaultNode ⟨21⟩ [some ⟨53⟩, some ⟨57⟩])]
    let replies := ((ofCache 1 (.ofBits 4)).attend events).1
    let last := ((ofCache 1 (.ofBits 4)).attend events).2
    (∀ r ∈ replies, r.overKnown = true) ∧
      replies.map (·.id) = [⟨37⟩, ⟨53⟩, ⟨53⟩, ⟨49⟩, ⟨57⟩, ⟨0⟩] ∧
      (∃ n, last.arena.get? ⟨0⟩ = some n ∧ n.flags = .present ||| .inheritance ∧
        ∃ other m, last.arena.Below ⟨0⟩ other ∧ last.arena.get? other = some m ∧
          Decoration.isSet .diagnostics m = true) ∧
      (∃ asked source, Behind replies ⟨57⟩ asked ∧ asked.copy? = some (source, .diagnostics)) ∧
      (ofCache 1 (.ofBits 4)).attend (events.map Event.plain) =
        (replies.map Reply.plain, last) := by
  intro events replies last
  have hknown : ∀ r ∈ replies, r.overKnown = true := by decide +kernel
  have hids : replies.map (·.id) = [⟨37⟩, ⟨53⟩, ⟨53⟩, ⟨49⟩, ⟨57⟩, ⟨0⟩] := by decide +kernel
  have hflags : (last.arena.get? ⟨0⟩).map (·.flags) = some (.present ||| .inheritance) ∧
      (last.arena.get? ⟨57⟩).map (·.flags.includes .hasDiagnostics) = some true := by
    decide +kernel
  obtain ⟨htold, hplain⟩ := flags_tell_of_tree 1 (.ofBits 4) hknown
  obtain ⟨n, hget, hn⟩ := Option.map_eq_some_iff.mp hflags.1
  obtain ⟨m, hget', hm⟩ := Option.map_eq_some_iff.mp hflags.2
  obtain ⟨-, -, htree⟩ := (htold ⟨0⟩ n hget).1 .diagnostics
  obtain ⟨hown, hasked, -⟩ := (htold ⟨57⟩ m hget').1 .diagnostics
  refine ⟨hknown, hids, ⟨n, hget, hn, htree.mp ?_⟩, hasked.mp (hown.mp hm), hplain⟩
  rw [hn]
  decide

end Store
end GreenTree
