import GreenTree.Brace.Index
import GreenTree.Proofs.Brace.Slices
import GreenTree.Proofs.IntervalTree.Queries

/-!
# Queries over the brace pairs of a tree

The pairs of a tree are collected by the start of what they enclose, so an index of them keeps their
order, ties included. Every query over the index is then a query over the list of pairs, and the
innermost pair is the one that a comparison of all pairs in this order finds.
-/

namespace GreenTree

open Outcome

namespace BracePair

/-- The opening token ends before the closing one starts, and that one ends at an offset. -/
structure Forward (p : BracePair) : Prop where
  order : p.opening.endNat ≤ p.closing.start.toNat
  fits : p.closing.Fits

/-- The span from the start of the opening token to the end of the closing one. -/
def enclosed (p : BracePair) : Span := ⟨p.opening.start, p.closing.endWord - p.opening.start⟩

/-- The position is an offset of what the pair encloses, or its end. -/
def Surrounds (p : BracePair) (position : UInt32) : Prop :=
  p.enclosed.start.toNat ≤ position.toNat ∧ position.toNat ≤ p.enclosed.endNat

instance (p : BracePair) (position : UInt32) : Decidable (p.Surrounds position) :=
  inferInstanceAs (Decidable (_ ∧ _))

/-- The pair encloses least, among those that enclose as much it opens last, and it is the first of
those that open there. -/
structure IsInnermost (p : BracePair) (pairs : List BracePair) : Prop where
  mem : p ∈ pairs
  least : ∀ q ∈ pairs, p.enclosed.length ≤ q.enclosed.length
  last : ∀ q ∈ pairs, q.enclosed.length = p.enclosed.length → q.opening.start ≤ p.opening.start
  first : (pairs.find? fun q => q.enclosed.length = p.enclosed.length ∧
    q.opening.start = p.opening.start) = some p

namespace Forward

variable {p : BracePair}

theorem start_le_end (h : p.Forward) : p.opening.start.toNat ≤ p.closing.endNat := by
  have horder := h.order
  rw [Span.endNat] at horder ⊢
  omega

theorem span_eq (h : p.Forward) : p.span = .ok p.enclosed := by
  have hle : p.opening.start ≤ p.closing.endWord := by
    rw [UInt32.le_iff_toNat_le, Span.toNat_endWord h.fits]
    exact h.start_le_end
  rw [span, Span.stop_of_fits h.fits, ok_bind, Span.between, if_pos hle]
  rfl

theorem endNat_enclosed (h : p.Forward) : p.enclosed.endNat = p.closing.endNat := by
  have hend := Span.toNat_endWord h.fits
  have hle : p.opening.start ≤ p.closing.endWord := by
    rw [UInt32.le_iff_toNat_le, hend]
    exact h.start_le_end
  calc p.enclosed.endNat
      = p.opening.start.toNat + (p.closing.endWord - p.opening.start).toNat := rfl
    _ = p.opening.start.toNat + (p.closing.endNat - p.opening.start.toNat) := by
        rw [UInt32.toNat_sub_of_le _ _ hle, hend]
    _ = p.closing.endNat := Nat.add_sub_of_le h.start_le_end

theorem fits_enclosed (h : p.Forward) : p.enclosed.Fits := by
  rw [Span.Fits, h.endNat_enclosed]
  exact h.fits

end Forward
end BracePair

namespace BraceIndex

/-- What the index keeps of a pair. -/
def entry (p : BracePair) : Span × BracePair := (p.enclosed, p)

section Innermost

/-! An innermost pair is found by one pass that keeps the best entry so far. -/

variable {best p q r : Span × BracePair} {entries earlier later : List (Span × BracePair)}

theorem isInside_iff : isInside p q = true ↔ p.1.length.toNat < q.1.length.toNat ∨
    p.1.length.toNat = q.1.length.toNat ∧
      q.2.opening.start.toNat < p.2.opening.start.toNat := by
  simp only [isInside, Bool.or_eq_true, Bool.and_eq_true, decide_eq_true_eq, beq_iff_eq,
    UInt32.lt_iff_toNat_lt, UInt32.toNat_inj]

theorem isInside_trans (hpq : isInside p q = true) (hqr : isInside q r = true) :
    isInside p r = true := by
  rw [isInside_iff] at *
  omega

theorem isInside_of_not_isInside (hpq : isInside p q = true) (hrq : ¬ isInside r q = true) :
    isInside p r = true := by
  rw [isInside_iff] at *
  omega

/-- The entry is inside all that come before it, and nothing that comes after is inside it. -/
structure Leads (best : Span × BracePair) (earlier later : List (Span × BracePair)) : Prop where
  earlier : ∀ p ∈ earlier, isInside best p = true
  later : ∀ p ∈ later, ¬ isInside p best = true

/-- The better one of the best entry so far and the next one. -/
def better (best q : Span × BracePair) : Span × BracePair := if isInside q best then q else best

/-- One step of the pass. -/
theorem Leads.step (h : Leads best earlier later) (q : Span × BracePair) :
    ∃ earlier' later', earlier ++ best :: (later ++ [q]) = earlier' ++ better best q :: later' ∧
      Leads (better best q) earlier' later' := by
  rw [better]
  split_ifs with hq
  · refine ⟨earlier ++ best :: later, [], by simp, ?_, by simp⟩
    intro p hp
    rcases List.mem_append.mp hp with hp | hp
    · exact isInside_trans hq (h.earlier p hp)
    · rcases List.mem_cons.mp hp with rfl | hp
      · exact hq
      · exact isInside_of_not_isInside hq (h.later p hp)
  · refine ⟨earlier, later ++ [q], rfl, h.earlier, ?_⟩
    intro p hp
    rcases List.mem_append.mp hp with hp | hp
    · exact h.later p hp
    · rw [List.mem_singleton.mp hp]
      exact hq

/-- The whole pass. -/
theorem Leads.foldl (h : Leads best earlier later) (entries : List (Span × BracePair)) :
    ∃ earlier' later',
      earlier ++ best :: (later ++ entries) =
        earlier' ++ entries.foldl better best :: later' ∧
      Leads (entries.foldl better best) earlier' later' := by
  induction entries generalizing best earlier later with
  | nil => exact ⟨earlier, later, by rw [List.append_nil]; rfl, h⟩
  | cons q rest ih =>
    obtain ⟨earlier', later', hsplit, hleads⟩ := h.step q
    obtain ⟨earlier'', later'', hsplit', hleads'⟩ := ih hleads
    refine ⟨earlier'', later'', ?_, hleads'⟩
    calc earlier ++ best :: (later ++ q :: rest)
        = earlier ++ best :: (later ++ [q]) ++ rest := by simp
      _ = earlier' ++ better best q :: (later' ++ rest) := by rw [hsplit]; simp
      _ = earlier'' ++ rest.foldl better (better best q) :: later'' := hsplit'

theorem exists_leads_of_innermostOf (h : innermostOf entries = some best) :
    ∃ earlier later, entries = earlier ++ best :: later ∧ Leads best earlier later := by
  cases entries with
  | nil => cases h
  | cons p rest =>
    obtain rfl : rest.foldl better p = best := Option.some.inj h
    have hfirst : Leads p [] [] := ⟨fun _ h => absurd h List.not_mem_nil,
      fun _ h => absurd h List.not_mem_nil⟩
    exact hfirst.foldl rest

theorem innermostOf_eq_none_iff : innermostOf entries = none ↔ entries = [] := by
  cases entries <;> simp [innermostOf]

end Innermost

/-- The pass over the entries of some pairs finds an innermost pair of them. -/
theorem isInnermost_of_innermostOf {pairs : List BracePair} {best : Span × BracePair}
    (h : innermostOf (pairs.map entry) = some best) : best.2.IsInnermost pairs := by
  obtain ⟨earlier, later, hsplit, hleads⟩ := exists_leads_of_innermostOf h
  obtain ⟨before, rest, rfl, rfl, hrest⟩ := List.map_eq_append_iff.mp hsplit
  obtain ⟨p, after, rfl, rfl, rfl⟩ := List.map_eq_cons_iff.mp hrest
  have hbefore : ∀ q ∈ before, isInside (entry p) (entry q) = true :=
    fun q hq => hleads.earlier _ (List.mem_map_of_mem hq)
  have hafter : ∀ q ∈ after, ¬ isInside (entry q) (entry p) = true :=
    fun q hq => hleads.later _ (List.mem_map_of_mem hq)
  simp only [isInside_iff, entry] at hbefore hafter
  have hall : ∀ q ∈ before ++ p :: after,
      p.enclosed.length.toNat < q.enclosed.length.toNat ∨
        p.enclosed.length.toNat = q.enclosed.length.toNat ∧
          q.opening.start.toNat ≤ p.opening.start.toNat := by
    intro q hq
    rcases List.mem_append.mp hq with hq | hq
    · have hinside := hbefore q hq
      omega
    · rcases List.mem_cons.mp hq with rfl | hq
      · exact .inr ⟨rfl, le_rfl⟩
      · have houtside := hafter q hq
        omega
  change p.IsInnermost (before ++ p :: after)
  constructor
  · exact List.mem_append_right before List.mem_cons_self
  · intro q hq
    have hq := hall q hq
    rw [UInt32.le_iff_toNat_le]
    omega
  · intro q hq hlength
    have hq := hall q hq
    rw [hlength] at hq
    rw [UInt32.le_iff_toNat_le]
    omega
  · have hnone : (before.find? fun q => q.enclosed.length = p.enclosed.length ∧
        q.opening.start = p.opening.start) = none := by
      rw [List.find?_eq_none]
      intro q hq heq
      have hq := hbefore q hq
      rw [decide_eq_true_eq] at heq
      rw [heq.1, heq.2] at hq
      omega
    rw [List.find?_append, hnone, Option.none_or, List.find?_cons_of_pos (by simp)]

theorem insertAll_eq {pairs : List BracePair} (h : ∀ p ∈ pairs, p.Forward) (i : BraceIndex) :
    i.insertAll pairs = (i.tree.insertAll (pairs.map entry)).map BraceIndex.mk := by
  induction pairs generalizing i with
  | nil => rfl
  | cons p rest ih =>
    obtain ⟨hp, hrest⟩ := List.forall_mem_cons.mp h
    rw [insertAll, insert, hp.span_eq, ok_bind, List.map_cons, IntervalTree.insertAll, entry]
    cases i.tree.insert (p.enclosed, p) with
    | error fault => rfl
    | ok tree => exact ih hrest ⟨tree⟩

/-- An index of pairs that are in order holds them in this order. -/
theorem exists_ofList {pairs : List BracePair} (h : ∀ p ∈ pairs, p.Forward)
    (horder : pairs.Pairwise fun p q => p.opening.start.toNat ≤ q.opening.start.toNat) :
    ∃ index, ofList pairs = .ok index ∧ index.tree.Sound ∧
      index.tree.toList = pairs.map entry := by
  have hfits : ∀ v ∈ pairs.map entry, Spanned.Fits v := by
    intro v hv
    obtain ⟨p, hp, rfl⟩ := List.mem_map.mp hv
    exact (h p hp).fits_enclosed
  obtain ⟨tree, htree, hsound, hsorted⟩ := IntervalTree.stablySorted_ofList _ hfits
  -- The pairs are in order already, so their stable sort is the list itself.
  have hself : IntervalTree.StablySorted (pairs.map entry) (pairs.map entry) :=
    ⟨List.pairwise_map.mpr horder, fun _ => rfl⟩
  refine ⟨⟨tree⟩, ?_, hsound, ?_⟩
  · rw [ofList, insertAll_eq h]
    change (IntervalTree.ofList (pairs.map entry)).map BraceIndex.mk = _
    rw [htree]
    rfl
  · rw [IntervalTree.toList_eq]
    exact hsorted.unique hself

section Answers

/-! An index holds the pairs of a list in their order. -/

variable {index : BraceIndex} {pairs : List BracePair} (hsound : index.tree.Sound)
  (hlist : index.tree.toList = pairs.map entry)

include hlist

theorem toList_eq : index.toList = pairs := by
  rw [toList, hlist, List.map_map]
  exact List.map_id pairs

theorem allMatching_eq (m : IntervalTree.Match) (query : Span) :
    index.tree.allMatching m query =
      (pairs.filter fun p => m.Holds p.enclosed query).map entry := by
  rw [IntervalTree.allMatching, hlist, List.filter_map]
  rfl

include hsound

theorem touching_eq {span : Span} (hspan : span.Fits) :
    index.touching span = .ok (pairs.filter fun p =>
      span.start.toNat ≤ p.enclosed.endNat ∧ p.enclosed.start.toNat ≤ span.endNat) := by
  rw [touching, IntervalTree.matching_eq hsound .touching hspan, ok_bind, allMatching_eq hlist,
    List.map_map]
  exact congrArg Except.ok (List.map_id _)

theorem innermost?_eq (position : UInt32) :
    index.innermost? position = .ok ((innermostOf
      ((pairs.filter fun p => p.Surrounds position).map entry)).map (·.2)) := by
  have hfits : (Span.mk position 0).Fits := position.toNat_lt
  have hholds : ∀ p : BracePair, IntervalTree.Match.covering.Holds p.enclosed ⟨position, 0⟩ ↔
      p.Surrounds position := fun p => Iff.rfl
  rw [innermost?, IntervalTree.matching_eq hsound .covering hfits, ok_bind, allMatching_eq hlist]
  simp only [hholds]
  rfl

/-- Nothing is answered where no pair surrounds the position, and otherwise an innermost one of
those that do. -/
theorem exists_innermost? (position : UInt32) :
    ∃ answer, index.innermost? position = .ok answer ∧
      (answer = none ↔ ∀ p ∈ pairs, ¬ p.Surrounds position) ∧
      ∀ p, answer = some p → p.IsInnermost (pairs.filter fun q => q.Surrounds position) := by
  refine ⟨_, innermost?_eq hsound hlist position, ?_, ?_⟩
  · rw [Option.map_eq_none_iff, innermostOf_eq_none_iff, List.map_eq_nil_iff,
      List.filter_eq_nil_iff]
    simp only [decide_eq_true_eq]
  · intro p hp
    obtain ⟨best, hbest, rfl⟩ := Option.map_eq_some_iff.mp hp
    exact isInnermost_of_innermostOf hbest

end Answers

end BraceIndex

namespace BraceKinds

/-- The pairs that are collected are in order, and in each the opening token comes first. -/
theorem exists_collect {a : Arena} {rank : NodeId → ℕ} (hground : a.Grounded rank)
    (b : BraceKinds) (root : NodeId) :
    ∃ text, a.text root = .ok text ∧ (text.utf8ByteSize ≤ Limits.maxWidth.toNat →
      ∃ found, b.collect a root = .ok found ∧ (∀ p ∈ found, p.Forward) ∧
        found.Pairwise fun p q => p.opening.start.toNat ≤ q.opening.start.toNat) := by
  rcases hget : a.get? root with _ | n
  · refine ⟨"", Arena.text_of_unknown hget, ?_⟩
    intro _
    refine ⟨[], collect_of_isToken fun n hn => ?_, by simp, .nil⟩
    rw [hget] at hn
    cases hn
  · obtain ⟨tree, htree, hcount⟩ := hground.exists_tree hget
    refine ⟨tree.text, Arena.text_eq htree hcount, ?_⟩
    intro hsize
    have hexact := hground.exact htree hsize
    refine ⟨_, collect_eq htree hcount hexact hsize, ?_,
      (IntervalTree.stablySorted_mergeSort _).inOrder⟩
    intro p hp
    rw [List.mem_mergeSort] at hp
    obtain ⟨-, -, -, horder, hend, -⟩ := spans_of_mem_pairsFrom htree hexact hsize hp
    refine ⟨horder, hend.trans_lt ?_⟩
    rw [← Arena.width_of_unfolds htree hget]
    exact n.width.toNat_lt

/-- An index answers as a search through all pairs would. Whatever known ids the nodes of a run are
built over, every root has a text, and while it has no more bytes than a node can be wide, the pairs
under the root are collected and indexed. Iteration yields the pairs as they were collected. The
pairs that overlap or touch a span are found in this order, and the answer for a position is nothing
exactly if no pair surrounds it, and otherwise an innermost one of the pairs that do. -/
theorem index_answers_as_search (instanceNumber : ℕ) (cache : Cache) {actions : List Store.Action}
    (hknown : (Store.ofCache instanceNumber cache).Obeys Action.overKnown actions)
    (b : BraceKinds) (root : NodeId) :
    let arena := ((Store.ofCache instanceNumber cache).run actions).arena
    ∃ text, arena.text root = .ok text ∧ (text.utf8ByteSize ≤ Limits.maxWidth.toNat →
      ∃ found index, b.collect arena root = .ok found ∧
        BraceIndex.ofTree b arena root = .ok index ∧ (∀ p ∈ found, p.span = .ok p.enclosed) ∧
        index.toList = found ∧
        (∀ span : Span, span.Fits → index.touching span = .ok (found.filter fun p =>
          span.start.toNat ≤ p.enclosed.endNat ∧ p.enclosed.start.toNat ≤ span.endNat)) ∧
        ∀ position, ∃ answer, index.innermost? position = .ok answer ∧
          (answer = none ↔ ∀ p ∈ found, ¬ p.Surrounds position) ∧
          ∀ p, answer = some p →
            p.IsInnermost (found.filter fun q => q.Surrounds position)) := by
  intro arena
  obtain ⟨rank, hground⟩ := Store.grounded_run instanceNumber cache hknown
  obtain ⟨text, htext, hcollect⟩ := exists_collect hground b root
  refine ⟨text, htext, ?_⟩
  intro hsize
  obtain ⟨found, hfound, hforward, horder⟩ := hcollect hsize
  obtain ⟨index, hindex, hsound, hlist⟩ := BraceIndex.exists_ofList hforward horder
  have htree : BraceIndex.ofTree b arena root = .ok index := by
    rw [BraceIndex.ofTree, hfound, ok_bind, hindex]
  exact ⟨found, index, hfound, htree, fun p hp => (hforward p hp).span_eq,
    BraceIndex.toList_eq hlist, fun span => BraceIndex.touching_eq hsound hlist,
    BraceIndex.exists_innermost? hsound hlist⟩

/-- The text is `([)]`, with a token without text in front. This token and the round bracket open
where the text starts and are closed by one token, so both enclose as much as the square brackets,
which cross them. -/
theorem index_answers_as_search_among_crossing_pairs :
    let actions : List Store.Action := [.request (.token ⟨10⟩ ""), .request (.token ⟨11⟩ "("),
      .request (.token ⟨12⟩ ")"), .request (.token ⟨13⟩ "["), .request (.token ⟨14⟩ "]"),
      .request (.list [⟨42⟩, ⟨41⟩, ⟨31⟩, ⟨39⟩, ⟨0⟩])]
    let b := ofList [(⟨10⟩, ⟨12⟩), (⟨11⟩, ⟨12⟩), (⟨13⟩, ⟨14⟩)]
    let start := Store.ofCache 1 (.ofBits 4)
    let arena := (start.run actions).arena
    let empty : BracePair := ⟨⟨0, 0⟩, ⟨2, 1⟩⟩
    let round : BracePair := ⟨⟨0, 1⟩, ⟨2, 1⟩⟩
    let square : BracePair := ⟨⟨1, 1⟩, ⟨3, 1⟩⟩
    start.Obeys Action.overKnown actions ∧ ∃ index, BraceIndex.ofTree b arena ⟨10⟩ = .ok index ∧
      index.toList = [empty, round, square] ∧ index.touching ⟨4, 0⟩ = .ok [square] ∧
      index.innermost? 0 = .ok (some empty) ∧ index.innermost? 2 = .ok (some square) ∧
      index.innermost? 5 = .ok none := by
  intro actions b start arena empty round square
  have hknown : start.Obeys Action.overKnown actions := by decide +kernel
  have htext : Outcome.passes (arena.text ⟨10⟩) (· == "([)]") = true := by decide +kernel
  have hwalk : Outcome.passes (b.collectFrom arena arena.walkBound [(⟨10⟩, 0)] #[])
      (· == #[empty, round, square]) = true := by decide +kernel
  obtain ⟨text, htext, heq⟩ := exists_of_passes htext
  obtain rfl : text = "([)]" := beq_iff_eq.mp heq
  obtain ⟨walked, hwalk, heq⟩ := exists_of_passes hwalk
  obtain rfl : walked = #[empty, round, square] := beq_iff_eq.mp heq
  have hcollect : b.collect arena ⟨10⟩ = .ok [empty, round, square] := by
    rw [collect, hwalk, ok_bind, List.mergeSort_of_pairwise (by decide)]
    rfl
  obtain ⟨text', htext', hanswers⟩ := index_answers_as_search 1 (.ofBits 4) hknown b ⟨10⟩
  obtain rfl : "([)]" = text' := Except.ok.inj (htext.symm.trans htext')
  obtain ⟨found, index, hfound, hindex, -, hlist, htouching, hinnermost⟩ := hanswers (by decide)
  obtain rfl : [empty, round, square] = found := Except.ok.inj (hcollect.symm.trans hfound)
  have hstart : [empty, round, square].filter (fun p => p.Surrounds 0) = [empty, round] := by decide
  have hmiddle : [empty, round, square].filter (fun p => p.Surrounds 2) =
    [empty, round, square] := by decide
  refine ⟨hknown, index, hindex, hlist, ?_, ?_, ?_, ?_⟩
  · rw [htouching ⟨4, 0⟩ (by decide)]
    decide
  · obtain ⟨answer, hanswer, hnone, hsome⟩ := hinnermost 0
    cases answer with
    | none => exact absurd (hnone.mp rfl) (by decide)
    | some p =>
      obtain ⟨hmem, -, -, hfirst⟩ := hstart ▸ hsome p rfl
      fin_cases hmem
      · exact hanswer
      · exact absurd hfirst (by decide)
  · obtain ⟨answer, hanswer, hnone, hsome⟩ := hinnermost 2
    cases answer with
    | none => exact absurd (hnone.mp rfl) (by decide)
    | some p =>
      obtain ⟨hmem, -, hlast, -⟩ := hmiddle ▸ hsome p rfl
      fin_cases hmem
      · exact absurd hlast (by decide)
      · exact absurd hlast (by decide)
      · exact hanswer
  · obtain ⟨answer, hanswer, hnone, -⟩ := hinnermost 5
    rw [hanswer, hnone.mpr (by decide)]

end BraceKinds
end GreenTree
