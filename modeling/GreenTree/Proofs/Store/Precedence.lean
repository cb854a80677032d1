import GreenTree.Proofs.Store.Actions

/-!
# Earlier and later states of a store

Whatever a store is asked for, the ids it knows keep their nodes and the tokens it has made keep
their ids. Only token requests enter anything in the table of tokens, so the table goes on to tell
the truth about every token in it.
-/

namespace GreenTree

namespace Flags

/-- The flags of a token: the known ones without decoration, and always present. -/
def normalized (f : Flags) : Flags := (f &&& known) \ decoration ||| present

theorem ofToken_eq_normalized (f : Flags) : f.ofToken = f.normalized := by
  have hand : f.undecorated = (f &&& known) \ decoration :=
    congrArg Flags.mk (UInt16.and_assoc ..).symm
  rw [ofToken, hand, normalized]

end Flags

/-- The token that a request asks for, if it asks for one that may be shared. -/
def Request.tokenKey? {ι : Type} : Request ι → Option TokenKey
  | .token kind text => some ⟨text, kind, .normalized .present⟩
  | .flaggedToken kind flags text => some ⟨text, kind, flags.normalized⟩
  | .missingToken _ | .node _ _ _ | .defaultNode _ _ | .list _ | .diagnose _ _ | .annotate _ _ =>
    none

theorem Request.exists_token_of_tokenKey? {request : Request NodeId} {key : TokenKey}
    (h : request.tokenKey? = some key) :
    ∃ kind flags text, key = ⟨text, kind, flags.ofToken⟩ ∧
      ∀ s : Store, s.answer request = s.token kind flags text := by
  cases request with
  | token kind text =>
    cases h
    exact ⟨kind, .present, text, by rw [Flags.ofToken_eq_normalized], fun _ => rfl⟩
  | flaggedToken kind flags text =>
    cases h
    exact ⟨kind, flags, text, by rw [Flags.ofToken_eq_normalized], fun _ => rfl⟩
  | _ => cases h

namespace Store

variable {s s' : Store} {kind : Kind} {flags : Flags} {text : String}

/-- Every id and every token of `s` is the same in `t`. -/
structure Precedes (s t : Store) : Prop where
  arena : s.arena.Extends t.arena
  tokens : ∀ key id, s.tokens.find? key = some id → t.tokens.find? key = some id

theorem Precedes.refl (s : Store) : s.Precedes s := ⟨.refl _, fun _ _ h => h⟩

theorem Precedes.trans {t u : Store} (hst : s.Precedes t) (htu : t.Precedes u) : s.Precedes u :=
  ⟨hst.arena.trans htu.arena, fun key id h => htu.tokens key id (hst.tokens key id h)⟩

/-- A token request leaves its token in the table, and every other one that was there. -/
theorem find?_token {id : NodeId} (h : s.token kind flags text = .ok (id, s')) :
    s'.tokens.find? ⟨text, kind, flags.ofToken⟩ = some id ∧
      ∀ key other, s.tokens.find? key = some other → s'.tokens.find? key = some other := by
  obtain ⟨hfind, rfl⟩ | ⟨hnew, n, arena, -, -, rfl⟩ := token_cases h
  · exact ⟨hfind, fun _ _ h => h⟩
  · simp only [TokenTable.find?_insert]
    refine ⟨if_pos trivial, ?_⟩
    intro key other hother
    rw [if_neg, hother]
    rintro rfl
    rw [hnew] at hother
    cases hother

theorem tokens_of_store {n : Node} {id : NodeId} (h : s.store n = .ok (id, s')) :
    s'.tokens = s.tokens := by
  obtain ⟨arena, -, rfl⟩ := store_eq_ok h
  rfl

theorem tokens_of_node {id : NodeId} {slots : List (Option NodeId)}
    (h : s.node kind flags slots = .ok (id, s')) : s'.tokens = s.tokens := by
  obtain ⟨-, -, -, rfl⟩ | ⟨arena, -, rfl | ⟨-, -, rfl⟩⟩ := node_cases h <;> rfl

theorem tokens_of_copyWith {source id : NodeId} {change : Node → Node}
    (h : s.copyWith source change = .ok (id, s')) : s'.tokens = s.tokens := by
  rw [copyWith] at h
  split at h
  · cases h
    rfl
  · exact tokens_of_store h

/-- Only a request for a token enters anything in the table. -/
theorem tokens_of_answer {request : Request NodeId} {id : NodeId}
    (hkey : request.tokenKey? = none) (h : s.answer request = .ok (id, s')) :
    s'.tokens = s.tokens := by
  cases request with
  | token kind text => cases hkey
  | flaggedToken kind flags text => cases hkey
  | missingToken kind =>
    change s.missingToken kind = _ at h
    rw [missingToken, Outcome.bind_eq_ok_iff] at h
    obtain ⟨n, -, h⟩ := h
    exact tokens_of_store h
  | node kind flags slots => exact tokens_of_node h
  | defaultNode kind slots => exact tokens_of_node h
  | list children => exact tokens_of_node h
  | diagnose source diagnostics => exact tokens_of_copyWith h
  | annotate source annotations => exact tokens_of_copyWith h

theorem precedes_of_answer {request : Request NodeId} {id : NodeId}
    (h : s.answer request = .ok (id, s')) : s.Precedes s' := by
  refine ⟨(change_of_answer h).extends, ?_⟩
  rcases hkey : request.tokenKey? with _ | key
  · rw [tokens_of_answer hkey h]
    exact fun _ _ hother => hother
  · obtain ⟨kind, flags, text, -, htoken⟩ := Request.exists_token_of_tokenKey? hkey
    rw [htoken] at h
    exact (find?_token h).2

theorem tokens_coherent_of_answer (hs : s.tokens.Coherent s.arena) {request : Request NodeId}
    {id : NodeId} (h : s.answer request = .ok (id, s')) : s'.tokens.Coherent s'.arena := by
  rcases hkey : request.tokenKey? with _ | key
  · rw [tokens_of_answer hkey h]
    exact hs.of_extends (change_of_answer h).extends
  · obtain ⟨kind, flags, text, -, htoken⟩ := Request.exists_token_of_tokenKey? hkey
    rw [htoken] at h
    exact (token_coherent hs h).1

end Store
end GreenTree
