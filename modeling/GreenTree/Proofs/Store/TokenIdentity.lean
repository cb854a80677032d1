import GreenTree.Proofs.Store.Precedence

/-!
# Identity of tokens

Over a whole run equal tokens have one id and different tokens have different ids, whatever is done
to the cache in between. The table of tokens never loses an entry, and the node behind an id tells
for which token it was made. Stand-ins for missing tokens and decorated copies are stored anew each
time, and their flags keep them apart from all tokens in the table.
-/

namespace GreenTree

open Outcome

/-- What happens to a store: it answers a request, or a client reaches for the cache itself. There
it may probe, offer and empty as it likes, with any arena, so the cache may change in any way. -/
abbrev Event := Action (Request NodeId) (Arena → Cache → Cache)

/-- A request that was answered, between the states before and after it. -/
structure Reply where
  before : Store
  asked : Request NodeId
  id : NodeId
  after : Store

/-- The reply that a step gives, if it answers a request. -/
def Step.reply? (r : Step Store Event (Option NodeId)) : Option Reply :=
  match r.action, r.answer with
  | .request asked, some id => some ⟨r.before, asked, id, r.after⟩
  | _, _ => none

theorem Step.eq_of_reply? {r : Step Store Event (Option NodeId)} {reply : Reply}
    (h : r.reply? = some reply) :
    r = ⟨reply.before, .request reply.asked, some reply.id, reply.after⟩ := by
  obtain ⟨before, asked | change, _ | id, after⟩ := r <;> cases h
  rfl

namespace Store

def undergo : Store → Event → Except Fault (Option NodeId × Store) :=
  Action.perform answer fun s change => { s with cache := change s.arena s.cache }

/-- The replies to the requests, and the last state. A request that is stopped by a fault ends the
run. -/
def attend (s : Store) (events : List Event) : List Reply × Store :=
  ((Run.steps undergo s events).filterMap Step.reply?, Run.last undergo s events)

end Store

/-- The request asks for a node of its own: a stand-in, or a decorated copy of a known node. -/
def Request.isUnshared (arena : Arena) : Request NodeId → Bool
  | .missingToken _ => true
  | .diagnose source _ | .annotate source _ => arena.contains source
  | .token _ _ | .flaggedToken _ _ _ | .node _ _ _ | .defaultNode _ _ | .list _ => false

/-- The node is the token that the key describes, present and without decoration. -/
structure Node.Bears (n : Node) (key : TokenKey) : Prop where
  kind : n.kind = key.kind
  flags : n.flags = key.flags
  text : n.text = some key.text
  width : n.width.toNat = key.text.utf8ByteSize
  slots : n.slots = []
  present : n.isMissing = false
  undecorated : n.flags.isDecorated = false ∧ n.diagnostics = none ∧ n.annotations = none

theorem Node.bears_of_token {kind : Kind} {flags : Flags} {text : String} {n : Node}
    (h : Node.token kind flags.ofToken text = .ok n) : n.Bears ⟨text, kind, flags.ofToken⟩ := by
  rw [Node.token] at h
  split_ifs at h with hfits
  cases h
  refine ⟨rfl, rfl, rfl, ?_, rfl, flags.isMissing_ofToken, flags.isDecorated_ofToken, rfl, rfl⟩
  exact UInt32.toNat_ofNat_of_lt' (Nat.lt_succ_of_le hfits)

theorem Node.Bears.unique {n : Node} {key key' : TokenKey} (h : n.Bears key) (h' : n.Bears key') :
    key = key' := by
  obtain ⟨text, kind, flags⟩ := key
  obtain ⟨text', kind', flags'⟩ := key'
  obtain rfl : kind = kind' := h.kind.symm.trans h'.kind
  obtain rfl : flags = flags' := h.flags.symm.trans h'.flags
  obtain rfl : text = text' := Option.some.inj (h.text.symm.trans h'.text)
  rfl

namespace Store

variable {s s' t : Store} {asked : Request NodeId} {id : NodeId} {key : TokenKey}

/-- A request for a token leaves its id in the table. -/
theorem find?_of_answer (hkey : asked.tokenKey? = some key) (h : s.answer asked = .ok (id, s')) :
    s'.tokens.find? key = some id := by
  obtain ⟨kind, flags, text, rfl, htoken⟩ := Request.exists_token_of_tokenKey? hkey
  rw [htoken] at h
  exact (find?_token h).1

theorem bears_of_answer (hs : s.tokens.Coherent s.arena) (hkey : asked.tokenKey? = some key)
    (h : s.answer asked = .ok (id, s')) : ∃ n, s'.arena.get? id = some n ∧ n.Bears key := by
  obtain ⟨kind, flags, text, rfl, htoken⟩ := Request.exists_token_of_tokenKey? hkey
  rw [htoken] at h
  obtain ⟨-, n, hn, hget⟩ := token_coherent hs h
  exact ⟨n, hget, Node.bears_of_token hn⟩

theorem stored_of_store {n : Node} (h : s.store n = .ok (id, s')) :
    s.arena.get? id = none ∧ s'.arena.get? id = some n := by
  obtain ⟨arena, hstore, rfl⟩ := store_eq_ok h
  exact ⟨Arena.get?_fresh_of_storeIn hstore, Arena.get?_stored hstore⟩

theorem stored_of_copyWith {source : NodeId} {change : Node → Node}
    (hsource : s.arena.contains source = true) (h : s.copyWith source change = .ok (id, s')) :
    s.arena.get? id = none ∧ ∃ n, s'.arena.get? id = some (change n) := by
  obtain ⟨n, hget⟩ := Option.isSome_iff_exists.mp hsource
  rw [copyWith, Store.get?, hget] at h
  obtain ⟨hfresh, hstored⟩ := stored_of_store h
  exact ⟨hfresh, n, hstored⟩

/-- A node that is not shared gets a new id, and it is missing or decorated. -/
theorem unshared_of_answer (hunshared : asked.isUnshared s.arena = true)
    (h : s.answer asked = .ok (id, s')) :
    s.arena.get? id = none ∧ ∃ n, s'.arena.get? id = some n ∧
      (n.isMissing = true ∨ n.flags.isDecorated = true) := by
  cases asked with
  | missingToken kind =>
    change s.missingToken kind = _ at h
    rw [missingToken, bind_eq_ok_iff] at h
    obtain ⟨n, hn, h⟩ := h
    rw [Node.token, if_pos (by decide)] at hn
    cases hn
    obtain ⟨hfresh, hstored⟩ := stored_of_store h
    exact ⟨hfresh, _, hstored, .inl (show Flags.none.isMissing = true by decide)⟩
  | diagnose source diagnostics =>
    obtain ⟨hfresh, n, hstored⟩ := stored_of_copyWith hunshared h
    exact ⟨hfresh, _, hstored, .inr ((Flags.or_meets_iff _ _ _).mpr (.inr (by decide)))⟩
  | annotate source annotations =>
    obtain ⟨hfresh, n, hstored⟩ := stored_of_copyWith hunshared h
    exact ⟨hfresh, _, hstored, .inr ((Flags.or_meets_iff _ _ _).mpr (.inr (by decide)))⟩
  | token _ _ | flaggedToken _ _ _ | node _ _ _ | defaultNode _ _ | list _ => cases hunshared

/-- What every reply and every change of the cache preserve, a run of events preserves, told of the
replies so far and the state after them. -/
theorem attend_induction {events : List Event} (P : List Reply → Store → Prop) (hs : P [] s)
    (hcache : ∀ change, .onCache change ∈ events → ∀ past s, P past s →
      P past { s with cache := change s.arena s.cache })
    (hreply : ∀ past, ∀ r ∈ (s.attend events).1, P past r.before →
      r.before.answer r.asked = .ok (r.id, r.after) → P (past ++ [r]) r.after) :
    P (s.attend events).1 (s.attend events).2 := by
  refine Run.steps_induction (fun past t => P (past.filterMap Step.reply?) t) hs ?_
  intro past before event id? after hsteps hact hbefore
  rw [List.filterMap_append]
  obtain ⟨asked, id, rfl, rfl, hanswer⟩ | ⟨change, rfl, rfl, rfl⟩ := Action.perform_cases hact
  · have hr := (hsteps.filterMap Step.reply?).subset (a := ⟨before, asked, id, after⟩)
    exact hreply _ ⟨before, asked, id, after⟩ (hr (by simp [Step.reply?])) hbefore hanswer
  · have hevent := Run.action_mem_of_mem_steps (hsteps.subset (List.mem_append_right past
      (List.mem_singleton_self _)))
    change P (past.filterMap Step.reply? ++ []) _
    rw [List.append_nil]
    exact hcache change hevent _ before hbefore

theorem undergo_spec {event : Event} {id? : Option NodeId} (hs : s.tokens.Coherent s.arena)
    (h : s.undergo event = .ok (id?, s')) : s'.tokens.Coherent s'.arena ∧ s.Precedes s' := by
  obtain ⟨asked, id, -, -, hanswer⟩ | ⟨change, -, -, rfl⟩ := Action.perform_cases h
  · exact ⟨tokens_coherent_of_answer hs hanswer, precedes_of_answer hanswer⟩
  · exact ⟨hs, .refl _, fun _ _ h => h⟩

/-- One request after the other, the table stays coherent and nothing known is forgotten. -/
theorem attend_spec (hs : s.tokens.Coherent s.arena) (events : List Event) :
    s.Precedes (s.attend events).2 ∧ ∀ r ∈ (s.attend events).1,
      r.before.tokens.Coherent r.before.arena ∧ r.before.answer r.asked = .ok (r.id, r.after) ∧
        r.after.Precedes (s.attend events).2 := by
  obtain ⟨-, hprecedes, hsteps⟩ := Run.steps_between (I := fun s : Store =>
    s.tokens.Coherent s.arena) Precedes.refl (fun _ _ _ => Precedes.trans)
    (fun _ _ _ _ => undergo_spec) hs events
  refine ⟨hprecedes, ?_⟩
  intro r hr
  obtain ⟨step, hstep, hreply⟩ := List.mem_filterMap.mp hr
  obtain ⟨hbefore, hact, hlater⟩ := hsteps step hstep
  obtain rfl := Step.eq_of_reply? hreply
  obtain ⟨asked, id, hasked, hid, hanswer⟩ | ⟨change, hcall, -⟩ := Action.perform_cases hact
  · cases hasked
    cases hid
    exact ⟨hbefore, hanswer, hlater⟩
  · cases hcall

/-- What has been answered stays answered when the run goes on. -/
theorem mem_attend_append {events : List Event} {r : Reply} (h : r ∈ (s.attend events).1)
    (more : List Event) : r ∈ (s.attend (events ++ more)).1 :=
  ((Run.steps_isPrefix_append s events more).filterMap Step.reply?).subset h

/-- The id of a token tells the token and is told by it. Over a run, two requests for tokens are
answered with one id if and only if they ask for the same text, kind and flags, and the id names
that token from then on. Stand-ins and decorated copies get new ids, which no request for a token is
answered with. -/
theorem token_id_identifies_token (instanceNumber : ℕ) (cache : Cache) (events : List Event) :
    let start := ofCache instanceNumber cache
    let replies := (start.attend events).1
    (∀ r ∈ replies, ∀ r' ∈ replies, ∀ key key', r.asked.tokenKey? = some key →
        r'.asked.tokenKey? = some key' → (r.id = r'.id ↔ key = key')) ∧
      (∀ r ∈ replies, ∀ key, r.asked.tokenKey? = some key → ∀ more,
        ∃ n, (start.attend (events ++ more)).2.arena.get? r.id = some n ∧ n.Bears key) ∧
      ∀ r ∈ replies, r.asked.isUnshared r.before.arena = true →
        r.before.arena.contains r.id = false ∧ r.after.arena.contains r.id = true ∧
          ∀ r' ∈ replies, r'.asked.tokenKey? ≠ none → r'.id ≠ r.id := by
  intro start replies
  have hstart := tokens_coherent_ofCache instanceNumber cache
  have hbears : ∀ r ∈ replies, ∀ key, r.asked.tokenKey? = some key → ∀ more,
      ∃ n, (start.attend (events ++ more)).2.arena.get? r.id = some n ∧ n.Bears key := by
    intro r hr key hkey more
    obtain ⟨hbefore, hanswer, hlater⟩ := (attend_spec hstart _).2 r (mem_attend_append hr more)
    obtain ⟨n, hget, hn⟩ := bears_of_answer hbefore hkey hanswer
    exact ⟨n, hlater.arena _ n hget, hn⟩
  have hlast : ∀ r ∈ replies, ∀ key, r.asked.tokenKey? = some key →
      ∃ n, (start.attend events).2.arena.get? r.id = some n ∧ n.Bears key := by
    intro r hr key hkey
    simpa only [List.append_nil] using hbears r hr key hkey []
  refine ⟨?_, hbears, ?_⟩
  · intro r hr r' hr' key key' hkey hkey'
    constructor
    · intro hid
      obtain ⟨n, hget, hn⟩ := hlast r hr key hkey
      obtain ⟨m, hget', hm⟩ := hlast r' hr' key' hkey'
      rw [← hid, hget, Option.some.injEq] at hget'
      subst hget'
      exact hn.unique hm
    · rintro rfl
      obtain ⟨-, hanswer, hlater⟩ := (attend_spec hstart events).2 r hr
      obtain ⟨-, hanswer', hlater'⟩ := (attend_spec hstart events).2 r' hr'
      have hfind := hlater.tokens key _ (find?_of_answer hkey hanswer)
      rw [hlater'.tokens key _ (find?_of_answer hkey' hanswer')] at hfind
      exact (Option.some.inj hfind).symm
  · intro r hr hunshared
    obtain ⟨-, hanswer, hlater⟩ := (attend_spec hstart events).2 r hr
    obtain ⟨hfresh, n, hget, hn⟩ := unshared_of_answer hunshared hanswer
    refine ⟨by rw [Arena.contains, hfresh]; rfl, by rw [Arena.contains, hget]; rfl, ?_⟩
    intro r' hr' hkey hid
    obtain ⟨key, hkey⟩ := Option.ne_none_iff_exists'.mp hkey
    obtain ⟨m, hget', hm⟩ := hlast r' hr' key hkey
    rw [hid, hlater.arena _ n hget, Option.some.injEq] at hget'
    subst hget'
    obtain hmissing | hdecorated := hn
    · rw [hm.present] at hmissing
      cases hmissing
    · rw [hm.undecorated.1] at hdecorated
      cases hdecorated

/-- A token is asked for with two sets of flags that come to the same, one of them with decoration
and a bit that means nothing, and with a third set. In between, the cache is made to answer with it,
and a decorated copy is made. -/
theorem token_id_identifies_token_held_by_cache :
    let key : TokenKey := ⟨"a", ⟨10⟩, .present⟩
    let other : TokenKey := ⟨"a", ⟨10⟩, .present ||| .asyncContext⟩
    let events : List Event := [.request (.token ⟨10⟩ "a"),
      .onCache fun arena c => (c.offer arena ⟨37⟩ 11).2, .request (.node ⟨10⟩ .present []),
      .request (.annotate ⟨37⟩ []), .request (.flaggedToken ⟨10⟩ ⟨0x21E⟩ "a"),
      .request (.flaggedToken ⟨10⟩ .asyncContext "a")]
    let replies := ((ofCache 1 (.ofBits 4)).attend events).1
    replies.map (fun r => (r.asked.tokenKey?, r.asked.isUnshared r.before.arena, r.id)) =
        [(some key, false, ⟨37⟩), (none, false, ⟨37⟩), (none, true, ⟨3⟩), (some key, false, ⟨37⟩),
          (some other, false, ⟨32⟩)] ∧
      (∃ r ∈ replies, ∃ r' ∈ replies, r.asked.tokenKey? = some key ∧
        r'.asked.tokenKey? = some other ∧ r.id ≠ r'.id) ∧
      (∃ n, ((ofCache 1 (.ofBits 4)).attend events).2.arena.get? ⟨37⟩ = some n ∧ n.Bears key) ∧
      ∃ r ∈ replies, r.id = ⟨3⟩ ∧ r.before.arena.contains ⟨3⟩ = false := by
  intro key other events replies
  have hreplies : replies.map (fun r => (r.asked.tokenKey?, r.asked.isUnshared r.before.arena,
      r.id)) = [(some key, false, ⟨37⟩), (none, false, ⟨37⟩), (none, true, ⟨3⟩),
        (some key, false, ⟨37⟩), (some other, false, ⟨32⟩)] := by
    decide +kernel
  obtain ⟨hsame, hbears, hunshared⟩ := token_id_identifies_token 1 (.ofBits 4) events
  have hmem : ∀ answer ∈ [(some key, false, NodeId.mk 37), (none, true, NodeId.mk 3),
      (some other, false, NodeId.mk 32)], ∃ r ∈ replies,
        (r.asked.tokenKey?, r.asked.isUnshared r.before.arena, r.id) = answer := by
    intro answer hanswer
    apply List.mem_map.mp
    rw [hreplies]
    exact List.Sublist.subset (by decide) hanswer
  obtain ⟨r, hr, heq⟩ := hmem (some key, false, ⟨37⟩) (by simp)
  obtain ⟨r', hr', heq'⟩ := hmem (some other, false, ⟨32⟩) (by simp)
  obtain ⟨r'', hr'', heq''⟩ := hmem (none, true, ⟨3⟩) (by simp)
  simp only [Prod.mk.injEq] at heq heq' heq''
  obtain ⟨hkey, -, hid⟩ := heq
  obtain ⟨hkey', -, -⟩ := heq'
  obtain ⟨-, hown, hid''⟩ := heq''
  have hdistinct : r.id ≠ r'.id := fun h =>
    absurd ((hsame r hr r' hr' key other hkey hkey').mp h) (by decide)
  refine ⟨hreplies, ⟨r, hr, r', hr', hkey, hkey', hdistinct⟩, ?_, r'', hr'', hid'', ?_⟩
  · have hnode := hbears r hr key hkey []
    rw [List.append_nil, hid] at hnode
    exact hnode
  · rw [← hid'']
    exact (hunshared r'' hr'' hown).1

end Store
end GreenTree
