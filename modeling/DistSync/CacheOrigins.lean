/-
**Where the values of a cache come from.**

In every run, with puts and gets that overlap in any way, the caches need not be coherent, and a
read may return a value that was overwritten long ago.  But it never returns one that nobody has
put: a value only comes into a cache or a memory from a put, from another cache or from a memory,
and takes its key along.  Only the URL of an internal read may name another key than the one that
was asked for, which the peer then reads; so a value may have been put under a key that the URLs
lead to.

Main definitions:

* `CacheNode.Permitted` — **the invariant**: all values of the cluster are among the permitted ones
  of their keys;
* `CacheNode.Leads` — the keys that peers read for a key.

Main results:

* `CacheNode.Permitted.step`, `CacheNode.permitted_exec` — every step keeps it, and every run;
* `CacheNode.nothingFromNowhere` — **every value that a get returns has been put**.
-/

import DistSync.CacheHandlers

set_option relaxedAutoImplicit false
set_option autoImplicit false

namespace CacheNode

open Runs

variable {ν β : Type*}

/-! ### Permitted values -/

/-- What a running handler has to do with is permitted: the value that it puts, those that it has
found, those that peers write back for it, the one that it evicts and the one that it will answer
with. -/
structure Handler.Permits (M : Setup ν) (P : String → β → Prop) (s : Cluster ν β)
    (h : Handler ν β) : Prop where
  put : ∀ key v, h.request = .put key v → P key v
  found : ∀ calls p v, h.stage = .reading calls → (p, .answered (some v)) ∈ calls →
    P h.request.key v
  writesBack : ∀ p o key e, h.writingBack p o → M.queryKey h.request.key = some key →
    (s.nodes p).cache.objects[o]? = some e → P key e.value
  evicted : ∀ key v response, h.stage = .evicting key v response → P key v
  answers : ∀ key v key' w state, h.stage = .evicting key v (.value key' w state) → P key' w

/-- **All values of the cluster are permitted.** -/
structure Permitted (M : Setup ν) (P : String → β → Prop) (s : Cluster ν β) : Prop where
  caches : ∀ m key e, Valid s m key e → P key e.value
  memory : ∀ m key v, (s.nodes m).memoryDb.get? key = some v → P key v
  handlers : ∀ h ∈ s.handlers, h.Permits M P s
  answers : ∀ n request key v state, (n, request, Response.value key v state) ∈ s.answers →
    request = .get key ∧ P key v

variable {M : Setup ν} {P : String → β → Prop} {s s' : Cluster ν β} {a : Action ν β}

theorem permitted_initial : Permitted M P (initial M : Cluster ν β) where
  caches := by
    rintro m key e ⟨hcopy, -⟩
    cases hcopy
  memory := by
    intro m key v hmemory
    cases hmemory
  handlers := fun _ hmem => absurd hmem List.not_mem_nil
  answers := fun _ _ _ _ _ hmem => absurd hmem List.not_mem_nil

/-! ### What comes into the cluster -/

theorem mem_of_readAnswers {calls : List (ν × ReadCall β)} {found : List (Option β)} {v : β}
    (hanswers : readAnswers calls = some found) (hfound : found.findSome? id = some v) :
    ∃ p, (p, ReadCall.answered (some v)) ∈ calls := by
  obtain ⟨answer, hanswer, hv⟩ := List.exists_of_findSome?_eq_some hfound
  obtain rfl : answer = some v := hv
  rw [readAnswers, Option.ite_none_right_eq_some] at hanswers
  rw [← Option.some.inj hanswers.2, List.mem_filterMap] at hanswer
  obtain ⟨⟨p, call⟩, hmem, hcall⟩ := hanswer
  cases call with
  | answered value =>
      obtain rfl : value = some v := Option.some.inj hcall
      exact ⟨p, hmem⟩
  | _ => cases hcall

theorem Permitted.installs (hP : Permitted M P s) (hS : Sound M s) {h : Handler ν β}
    {entry : CacheEntry β} {response : Response β} (hinstalls : Installs s a h entry response) :
    P h.request.key entry.value := by
  have hmem := hinstalls.mem
  cases hinstalls with
  | found hi hstage hanswers hfound =>
      obtain ⟨p, hcall⟩ := mem_of_readAnswers hanswers hfound
      exact (hP.handlers h hmem).found _ p _ hstage hcall
  | fetched hi hstage hmemory => exact hP.memory _ _ _ hmemory
  | written hi hstage =>
      exact (hP.handlers h hmem).put _ _ (request_of_apt_writing (hS.apt h hmem) hstage)

/-- The object that is written back is of the key that the peer was asked for. -/
theorem Permitted.writesBack (hP : Permitted M P s) {p : ν} {o : ℕ} {key : String}
    {e : CacheEntry β} (hback : WritesBack M s a p o key e) : P key e.value := by
  obtain ⟨⟨i, j, h, calls, -, hi, hstage, hj, hquery⟩, hobject⟩ := hback
  exact (hP.handlers h (List.mem_of_getElem? hi)).writesBack p o key e
    ⟨calls, hstage, List.mem_of_getElem? hj⟩ hquery hobject

theorem Permitted.brings (hP : Permitted M P s) (hS : Sound M s) {m : ν} {key : String} {v : β}
    (hbrings : Brings M s a m key v) : P key v := by
  cases hbrings with
  | installed hinstalls hnode hkey hvalue =>
      rw [← hkey, ← hvalue]
      exact hP.installs hS hinstalls
  | @revived o key' entry hback hentry hvalue =>
      rw [← hvalue]
      -- the entry of the key is the object that the handler has asked for
      obtain ⟨⟨i, j, h, calls, -, hi, hstage, hj, hquery⟩, -⟩ := id hback
      have howned := hS.owned h (List.mem_of_getElem? hi) m o
        ⟨calls, hstage, List.mem_of_getElem? hj⟩
      obtain rfl : key' = key := Option.some.inj (hquery.symm.trans (howned.owner key hentry))
      exact hP.writesBack hback

theorem Permitted.writes (hP : Permitted M P s) (hS : Sound M s) {m : ν} {key : String} {v : β}
    (hwrites : Writes M s a m key v) : P key v := by
  cases hwrites with
  | @put i h ha hi hstage hnode hkey =>
      have hmem := List.mem_of_getElem? hi
      rw [← hkey]
      exact (hP.handlers h hmem).put _ _ (request_of_apt_writing (hS.apt h hmem) hstage)
  | readBack hback hvalue =>
      rw [← hvalue]
      exact hP.writesBack hback
  | @evicted i h response ha hi hstage hnode =>
      exact (hP.handlers h (List.mem_of_getElem? hi)).evicted key v response hstage

/-! ### Handlers and answers -/

/-- A handler that has not begun to read or to evict. -/
theorem Handler.permits_of_stage {h : Handler ν β}
    (hput : ∀ key v, h.request = .put key v → P key v)
    (hreading : ∀ calls p call, h.stage = .reading calls → (p, call) ∈ calls → call = .sent)
    (hevicting : ∀ key v response, h.stage ≠ .evicting key v response) : h.Permits M P s where
  put := hput
  found := by
    intro calls p v hstage hcall
    cases hreading calls p _ hstage hcall
  writesBack := by
    rintro p o key e ⟨calls, hstage, hcall⟩
    cases hreading calls p _ hstage hcall
  evicted := fun key v response hstage => absurd hstage (hevicting key v response)
  answers := fun key v key' w state hstage => absurd hstage (hevicting key v _)

/-- The value of a key is an answer to a get of this key. -/
theorem request_of_apt_evicting {h : Handler ν β} {key key' : String} {v w : β} {state : Mesi}
    (hapt : h.apt M) (hstage : h.stage = .evicting key v (.value key' w state)) :
    h.request = .get key' := by
  obtain ⟨n, request, stage⟩ := h
  subst hstage
  cases request with
  | get key =>
      obtain rfl : key' = key := hapt
      rfl
  | put key value => exact hapt.elim

/-- What a handler installs is permitted, and so is what is evicted for it. -/
theorem Permitted.evicts [DecidableEq ν] (hP : Permitted M P s) (hS : Sound M s)
    {h : Handler ν β} {entry evicted : CacheEntry β} {response : Response β} {key : String}
    (hinstalls : Installs s a h entry response)
    (hput : ((s.nodes h.node).cache.put h.request.key entry).2 = some (key, evicted))
    (hmodified : evicted.state = .M) : P key evicted.value := by
  rcases LruCache.copy_of_evicted hput with ⟨hkey, hentry⟩ | ⟨-, hcopy⟩
  · rw [hkey, hentry]
    exact hP.installs hS hinstalls
  · exact hP.caches h.node key evicted ⟨hcopy, by rw [hmodified]; decide⟩

theorem Permitted.response (hP : Permitted M P s) (hS : Sound M s) {h : Handler ν β}
    {entry : CacheEntry β} {key : String} {v : β} {state : Mesi}
    (hinstalls : Installs s a h entry (.value key v state)) :
    h.request = .get key ∧ P key v := by
  have hpermitted := hP.installs hS hinstalls
  have hapt := hS.apt h hinstalls.mem
  have hget : h.isPut = false → h.request = .get h.request.key := by
    intro hisPut
    obtain ⟨n, request, stage⟩ := h
    cases request with
    | get key => rfl
    | put key w => cases hisPut
  cases hinstalls with
  | found hi hstage => exact ⟨hget (isPut_of_apt_reading hapt hstage), hpermitted⟩
  | fetched hi hstage => exact ⟨hget (isPut_of_apt_fetching hapt hstage), hpermitted⟩

/-- An object keeps its value. -/
theorem value_of_keeps {c c' : LruCache β} (h : c.Keeps c') {o : ℕ} {e e' : CacheEntry β}
    (he : c.objects[o]? = some e) (he' : c'.objects[o]? = some e') : e'.value = e.value := by
  obtain ⟨e₁, he₁, hvalue⟩ := h.value o e he
  rw [Option.some.inj (he'.symm.trans he₁), hvalue]

section Step

variable [DecidableEq ν]

/-- An object that was asked for is still there after a step, with its value. -/
theorem Permitted.object (hP : Permitted M P s) (hS : Sound M s) (hmove : Moves M s a s')
    {h : Handler ν β} (hmem : h ∈ s.handlers) {p : ν} {o : ℕ} {key : String} {e : CacheEntry β}
    (hback : h.writingBack p o) (hquery : M.queryKey h.request.key = some key)
    (hobject : (s'.nodes p).cache.objects[o]? = some e) : P key e.value := by
  obtain ⟨e₀, he₀⟩ := (hS.owned h hmem p o hback).object
  rw [value_of_keeps (keeps_of_moves hmove p) he₀ hobject]
  exact (hP.handlers h hmem).writesBack p o key e₀ hback hquery he₀

/-- A handler that reads, after one of its calls has gone on. -/
theorem Permitted.permits_reading (hP : Permitted M P s) (hS : Sound M s) (hmove : Moves M s a s')
    {i j : ℕ} {h : Handler ν β} {calls : List (ν × ReadCall β)} {peer : ν} {call : ReadCall β}
    (hi : s.handlers[i]? = some h) (hstage : h.stage = .reading calls)
    (hanswered : ∀ v, call = .answered (some v) → P h.request.key v)
    (hwritingBack : ∀ o key e, call = .writingBack o → M.queryKey h.request.key = some key →
      (s'.nodes peer).cache.objects[o]? = some e → P key e.value) :
    Handler.Permits M P s' { h with stage := .reading (calls.set j (peer, call)) } := by
  have hmem := List.mem_of_getElem? hi
  have hold := hP.handlers h hmem
  refine ⟨hold.put, ?_, ?_, fun _ _ _ hstage => (by cases hstage),
    fun _ _ _ _ _ hstage => (by cases hstage)⟩
  · rintro calls' p v heq hcall
    cases heq
    rcases List.mem_or_eq_of_mem_set hcall with hcall | heq
    · exact hold.found calls p v hstage hcall
    · exact hanswered v (Prod.mk.inj heq).2.symm
  · rintro p o key e ⟨calls', heq, hcall⟩ hquery hobject
    cases heq
    rcases List.mem_or_eq_of_mem_set hcall with hcall | heq
    · exact hP.object hS hmove hmem ⟨calls, hstage, hcall⟩ hquery hobject
    · obtain ⟨rfl, hnew⟩ := Prod.mk.inj heq
      exact hwritingBack o key e hnew.symm hquery hobject

/-- **A handler after a step.** -/
theorem Permitted.permits (hP : Permitted M P s) (hS : Sound M s)
    (hclosed : ∀ key key' v, M.queryKey key = some key' → P key' v → P key v)
    (hput : ∀ n key v, a = .put n key v → P key v) (hmove : Moves M s a s') {h : Handler ν β}
    (hnext : Follows M s a h) : h.Permits M P s' := by
  cases hnext with
  | same hmem =>
      have hold := hP.handlers h hmem
      exact ⟨hold.put, hold.found, fun _ _ _ _ => hP.object hS hmove hmem, hold.evicted,
        hold.answers⟩
  | get ha =>
      refine Handler.permits_of_stage (fun _ _ hrequest => by cases hrequest)
        (fun calls p call hstage hcall => ?_) (fun _ _ _ hstage => by cases hstage)
      exact eq_sent_of_mem hstage hcall
  | put ha =>
      refine Handler.permits_of_stage (fun key v hrequest => ?_)
        (fun _ _ _ hstage => by cases hstage) (fun _ _ _ hstage => by cases hstage)
      cases hrequest
      exact hput _ _ _ ha
  | @read i j h calls peer hi hstage hj =>
      refine hP.permits_reading hS hmove hi hstage (fun v hcall => ?_)
        fun o key e hcall hquery hobject => ?_
      · obtain ⟨key, e, hquery, hcopy, hvalid, hvalue⟩ := internalRead_answered hcall
        rw [← hvalue]
        exact hclosed _ _ _ hquery (hP.caches peer key e ⟨hcopy, hvalid⟩)
      · -- the object that the peer has just found
        obtain ⟨key', e₀, hquery', -, he₀, hcopy, hvalid⟩ := internalRead_writingBack hcall
        obtain rfl : key = key' := Option.some.inj (hquery.symm.trans hquery')
        rw [value_of_keeps (keeps_of_moves hmove peer) he₀ hobject]
        exact hP.caches peer key e₀ ⟨hcopy, hvalid⟩
  | @readBack i j h calls peer o entry hi hstage hj hobject =>
      have hmem := List.mem_of_getElem? hi
      have hback : h.writingBack peer o := ⟨calls, hstage, List.mem_of_getElem? hj⟩
      refine hP.permits_reading hS hmove hi hstage (fun v hcall => ?_)
        fun o' key e hcall => (by cases hcall)
      obtain rfl : entry.value = v := Option.some.inj (ReadCall.answered.inj hcall)
      obtain ⟨key, hquery⟩ := (hS.owned h hmem peer o hback).asked
      exact hclosed _ _ _ hquery
        ((hP.handlers h hmem).writesBack peer o key entry hback hquery hobject)
  | @invalidate i j h value calls peer ha hi hstage hj =>
      exact Handler.permits_of_stage (hP.handlers h (List.mem_of_getElem? hi)).put
        (fun _ _ _ hstage => by cases hstage) (fun _ _ _ hstage => by cases hstage)
  | @fetch i h calls hi hstage =>
      exact Handler.permits_of_stage (hP.handlers h (List.mem_of_getElem? hi)).put
        (fun _ _ _ hstage => by cases hstage) (fun _ _ _ hstage => by cases hstage)
  | @write i h value calls hi hstage hcalls =>
      exact Handler.permits_of_stage (hP.handlers h (List.mem_of_getElem? hi)).put
        (fun _ _ _ hstage => by cases hstage) (fun _ _ _ hstage => by cases hstage)
  | @evict h entry evicted response key hmem hinstalls hput' hmodified =>
      refine ⟨(hP.handlers h hmem).put, fun _ _ _ hstage => (by cases hstage), ?_, ?_, ?_⟩
      · rintro p o key' e ⟨calls, hstage, -⟩
        cases hstage
      · rintro key' v response' hstage
        cases hstage
        exact hP.evicts hS hinstalls hput' hmodified
      · rintro key' v key'' w state hstage
        cases hstage
        exact (hP.response hS hinstalls).2

/-- **Every step keeps the values permitted.** -/
theorem Permitted.step (hP : Permitted M P s) (hS : Sound M s)
    (hclosed : ∀ key key' v, M.queryKey key = some key' → P key' v → P key v)
    (hput : ∀ n key v, a = .put n key v → P key v) (hmove : Moves M s a s') :
    Permitted M P s' where
  caches := by
    intro m key e he
    rcases valid_of_moves hmove he with ⟨e₀, he₀, hvalue⟩ | hbrings
    · rw [← hvalue]
      exact hP.caches m key e₀ he₀
    · exact hP.brings hS hbrings
  memory := by
    intro m key v hmemory
    rcases memory_of_moves hmove m key with hsame | ⟨v', hwrites, hwritten⟩
    · exact hP.memory m key v (hsame ▸ hmemory)
    · obtain rfl : v = v' := Option.some.inj (hmemory.symm.trans hwritten)
      exact hP.writes hS hwrites
  handlers := fun h hmem =>
    hP.permits hS hclosed hput hmove (follows_of_moves hmove h hmem)
  answers := by
    intro n request key v state hmem
    rcases tells_of_moves hmove with hsame | ⟨answer, htells, hsame⟩
    · exact hP.answers n request key v state (hsame ▸ hmem)
    · rw [hsame, List.mem_append, List.mem_singleton] at hmem
      rcases hmem with hmem | rfl
      · exact hP.answers n request key v state hmem
      · cases htells with
        | hit ha hvalid => exact ⟨rfl, hP.caches _ _ _ hvalid⟩
        | installed hmem hinstalls => exact hP.response hS hinstalls
        | @evicted i h key' value response ha hi hstage =>
            have hmem := List.mem_of_getElem? hi
            refine ⟨?_, (hP.handlers _ hmem).answers _ _ _ _ _ hstage⟩
            exact request_of_apt_evicting (hS.apt _ hmem) hstage

/-- **So does every run**, when the values that are put in it are permitted. -/
theorem permitted_exec
    (hclosed : ∀ key key' v, M.queryKey key = some key' → P key' v → P key v)
    {actions : List (Action ν β)} (hputs : ∀ n key v, Action.put n key v ∈ actions → P key v)
    (hS : Sound M s) (hP : Permitted M P s)
    (h : exec (CacheNode.step M) anyAction s actions = some s') : Permitted M P s' := by
  induction actions generalizing s with
  | nil =>
      obtain rfl : s = s' := by simpa [exec] using h
      exact hP
  | cons a actions ih =>
      obtain ⟨-, s₁, hstep, hexec⟩ := Run.exec_cons.1 h
      have hmove := moves_of_step hstep
      refine ih (fun n key v hmem => hputs n key v (List.mem_cons_of_mem _ hmem))
        (hS.step hmove) (hP.step hS hclosed (fun n key v ha => ?_) hmove) hexec
      rw [ha] at hputs
      exact hputs n key v List.mem_cons_self

/-! ### Every value was put -/

omit [DecidableEq ν] in
/-- The keys that peers read when they are asked for a key, when those are asked for again, and so
on. -/
def Leads (M : Setup ν) : String → String → Prop :=
  Relation.ReflTransGen fun key key' => M.queryKey key = some key'

/-- **Every value that a get returns has been put**, by a client of some node, under the key of the
get or one that its URLs lead to. -/
theorem nothingFromNowhere {actions : List (Action ν β)} {n : ν} {request : Request β}
    {key : String} {v : β} {state : Mesi}
    (h : exec (CacheNode.step M) anyAction (initial M) actions = some s)
    (hanswer : (n, request, .value key v state) ∈ s.answers) :
    request = .get key ∧ ∃ m key', Leads M key key' ∧ Action.put m key' v ∈ actions := by
  let P : String → β → Prop := fun key v =>
    ∃ m key', Leads M key key' ∧ Action.put m key' v ∈ actions
  have hclosed : ∀ key key' v, M.queryKey key = some key' → P key' v → P key v := by
    rintro key key' v hquery ⟨m, key'', hleads, hmem⟩
    exact ⟨m, key'', hleads.head hquery, hmem⟩
  have hputs : ∀ n key v, Action.put n key v ∈ actions → P key v :=
    fun n key v hmem => ⟨n, key, .refl, hmem⟩
  exact (permitted_exec hclosed hputs sound_initial permitted_initial h).answers n request key v
    state hanswer

/-- Two puts that overlap, and a get at the node whose value is overwritten last. -/
theorem nothingFromNowhere_overlapping : ∃ m key', Leads pair "k" key' ∧
    Action.put m key' 1 ∈ overlappingPuts ++ [.get 0 "k"] := by
  have hexec : ((exec (CacheNode.step pair) anyAction (initial pair)
      (overlappingPuts ++ [.get 0 "k"])).any fun s =>
        decide ((0, .get "k", .value "k" 1 .M) ∈ s.answers)) = true := by decide
  obtain ⟨s, hs, hanswer⟩ := (Option.any_eq_true _ _).1 hexec
  exact (nothingFromNowhere hs (of_decide_eq_true hanswer)).2

end Step

end CacheNode
