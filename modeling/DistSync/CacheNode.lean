/-
**The cache nodes.**

This module is a transcription of `DistributedCacheNode` in `nodes/cache_node.py`: nodes that each
have a cache and a memory of their own, and ask each other for copies.  Handlers run between their
awaits without interruption.  They wait for the answers to a broadcast, and for the memory, which
sleeps before every access.

A handler of a client's request is an element of the list `handlers`, with the place at which it
waits.  The internal requests that it has sent belong to it; each is served by its peer at some
moment, and an internal read waits there for the memory when it finds a modified entry.  All calls
are answered.

The values are not null.  `handle_get` takes a null from a peer or from the memory for no value, a
test that never fires here; `CacheFailures` and `CacheServer` have it.

The key of an internal read travels in the query of a URL, which the HTTP library of the peer
decodes.  What the peer gets for a key is the parameter `queryKey`.

Main definitions:

* `CacheNode.Cluster` — caches, memories and running handlers;
* `CacheNode.step` — **one step of the cluster**;
* `CacheNode.Moves` — the steps, one constructor for each way a step can go.

Main results:

* `CacheNode.moves_of_step` — every step is one of them.
-/

import DistSync.LruCache
import DistSync.RunRules

set_option relaxedAutoImplicit false
set_option autoImplicit false

namespace CacheNode

variable {ν β : Type*}

/-! ### Nodes and handlers -/

/-- The nodes, their peers in the order of the configuration, their capacities, and the decoding of
keys in URLs.  A node may be among its own peers. -/
structure Setup (ν : Type*) where
  peers : ν → List ν
  capacity : ν → ℕ
  queryKey : String → Option String
  nodup : ∀ n, (peers n).Nodup
  all_peers : ∀ n m, m ≠ n → m ∈ peers n
  capacity_pos : ∀ n, 1 ≤ capacity n

/-- A cache node. -/
structure DistributedCacheNode (β : Type*) where
  cache : LruCache β
  memoryDb : Dict String β

/-- A request of a client. -/
inductive Request (β : Type*)
  | get (key : String)
  | put (key : String) (value : β)
deriving DecidableEq

/-- The answer to a request. -/
inductive Response (β : Type*)
  | value (key : String) (value : β) (state : Mesi)
  | ok (key : String)
  | error (error : String) (status : ℕ)
deriving DecidableEq

/-- An internal read: sent, waiting at the peer to write back the object it found, or answered. -/
inductive ReadCall (β : Type*)
  | sent
  | writingBack (object : ℕ)
  | answered (value : Option β)

/-- The places at which a handler waits. -/
inductive Stage (ν β : Type*)
  /-- `handle_get`, for the answers of its peers -/
  | reading (calls : List (ν × ReadCall β))
  /-- `handle_get`, for the memory -/
  | fetching
  /-- `handle_put`, for the answers of its peers -/
  | invalidating (value : β) (calls : List (ν × Bool))
  /-- `handle_put`, for the memory -/
  | writing (value : β)
  /-- both, for the write-back of an evicted entry -/
  | evicting (key : String) (value : β) (response : Response β)

/-- A running handler. -/
structure Handler (ν β : Type*) where
  node : ν
  request : Request β
  stage : Stage ν β

/-- The key of a request. -/
def Request.key : Request β → String
  | .get key => key
  | .put key _ => key

/-- The cluster, with the answers given to clients. -/
structure Cluster (ν β : Type*) where
  nodes : ν → DistributedCacheNode β
  handlers : List (Handler ν β)
  answers : List (ν × Request β × Response β)

/-- The cluster after its start. -/
def initial (M : Setup ν) : Cluster ν β :=
  ⟨fun n => ⟨.empty (M.capacity n), ∅⟩, [], []⟩

/-! ### Steps -/

/-- The steps of the cluster.  Handlers and their calls are named by their positions. -/
inductive Action (ν β : Type*)
  | get (node : ν) (key : String)
  | put (node : ν) (key : String) (value : β)
  | internalRead (handler call : ℕ)
  | internalReadDone (handler call : ℕ)
  | internalInvalidate (handler call : ℕ)
  | resume (handler : ℕ)

section Step

variable [DecidableEq ν]

/-- The cluster with one node replaced. -/
def Cluster.setNode (s : Cluster ν β) (n : ν) (node : DistributedCacheNode β) : Cluster ν β :=
  { s with nodes := fun m => if m = n then node else s.nodes m }

/-- The cluster with the cache of one node replaced. -/
def Cluster.setCache (s : Cluster ν β) (n : ν) (cache : LruCache β) : Cluster ν β :=
  s.setNode n { s.nodes n with cache := cache }

/-- The cluster after one node wrote to its memory. -/
def Cluster.writeMemory (s : Cluster ν β) (n : ν) (key : String) (value : β) : Cluster ν β :=
  s.setNode n { s.nodes n with memoryDb := (s.nodes n).memoryDb.set key value }

/-- The cluster with one handler at another place. -/
def Cluster.setStage (s : Cluster ν β) (i : ℕ) (stage : Stage ν β) : Cluster ν β :=
  { s with handlers := s.handlers.modify i fun handler => { handler with stage := stage } }

/-- The cluster with a new handler. -/
def Cluster.begin (s : Cluster ν β) (handler : Handler ν β) : Cluster ν β :=
  { s with handlers := s.handlers ++ [handler] }

/-- The cluster after an answer. -/
def Cluster.answer (s : Cluster ν β) (n : ν) (request : Request β) (response : Response β) :
    Cluster ν β :=
  { s with answers := s.answers ++ [(n, request, response)] }

/-- The cluster after a handler has answered and ended. -/
def Cluster.finish (s : Cluster ν β) (i : ℕ) (handler : Handler ν β) (response : Response β) :
    Cluster ν β :=
  { s.answer handler.node handler.request response with handlers := s.handlers.eraseIdx i }

/-- The end of both handlers: the entry is put into the local cache, and the handler answers, after
the write-back of the evicted entry if that was modified. -/
def Cluster.install (s : Cluster ν β) (i : ℕ) (handler : Handler ν β) (entry : CacheEntry β)
    (response : Response β) : Cluster ν β :=
  let (cache, evicted) := (s.nodes handler.node).cache.put handler.request.key entry
  let s := s.setCache handler.node cache
  match evicted with
  | none => s.finish i handler response
  | some (key, evicted) =>
      -- only a modified entry is written back
      if evicted.state = .M then s.setStage i (.evicting key evicted.value response)
      else s.finish i handler response

/-- The part of `handle_internal_read` before its `await`, for the key that the peer has read from
the URL. -/
def internalRead (cache : LruCache β) : Option String → LruCache β × ReadCall β
  | none => (cache, .answered none)
  | some key =>
      match cache.get key with
      | (cache, none) => (cache, .answered none)
      | (cache, some (o, entry)) =>
          match entry.state with
          | .M => (cache, .writingBack o)
          | .E => (cache.setState o .S, .answered (some entry.value))
          | _ => (cache, .answered (some entry.value))

/-- The answer of a call that was answered. -/
def ReadCall.answer? : ReadCall β → Option (Option β)
  | .answered value => some value
  | _ => none

/-- The answers to a broadcast, once all of them are in. -/
def readAnswers (calls : List (ν × ReadCall β)) : Option (List (Option β)) :=
  if calls.all (fun call => call.2.answer?.isSome) = true then
    some (calls.filterMap fun call => call.2.answer?)
  else none

/-- **One step of the cluster.**  `none` means that the step cannot be taken now. -/
def step (M : Setup ν) (s : Cluster ν β) : Action ν β → Option (Cluster ν β)
  | .get n key =>
      if key = "" then some (s.answer n (.get key) (.error "missing_key" 400))
      else
        match (s.nodes n).cache.get key with
        | (cache, some (_, entry)) =>
            some ((s.setCache n cache).answer n (.get key) (.value key entry.value entry.state))
        | (_, none) =>
            some (s.begin ⟨n, .get key, .reading ((M.peers n).map fun peer => (peer, .sent))⟩)
  | .put n key value =>
      if key = "" then some (s.answer n (.put key value) (.error "missing_key" 400))
      else
        some (s.begin ⟨n, .put key value,
          .invalidating value ((M.peers n).map fun peer => (peer, false))⟩)
  | .internalRead i j =>
      match s.handlers[i]? with
      | some ⟨_, request, .reading calls⟩ =>
          match calls[j]? with
          | some (peer, .sent) =>
              let (cache, call) := internalRead (s.nodes peer).cache (M.queryKey request.key)
              some ((s.setCache peer cache).setStage i (.reading (calls.set j (peer, call))))
          | _ => none
      | _ => none
  | .internalReadDone i j =>
      match s.handlers[i]? with
      | some ⟨_, request, .reading calls⟩ =>
          match calls[j]?, M.queryKey request.key with
          | some (peer, .writingBack o), some key =>
              match (s.nodes peer).cache.objects[o]? with
              | none => none
              | some entry =>
                  let cache := (s.nodes peer).cache.setState o .S
                  some (((s.writeMemory peer key entry.value).setCache peer cache).setStage i
                    (.reading (calls.set j (peer, .answered (some entry.value)))))
          | _, _ => none
      | _ => none
  | .internalInvalidate i j =>
      match s.handlers[i]? with
      | some ⟨_, request, .invalidating value calls⟩ =>
          match calls[j]? with
          | some (peer, false) =>
              some ((s.setCache peer ((s.nodes peer).cache.invalidate request.key)).setStage i
                (.invalidating value (calls.set j (peer, true))))
          | _ => none
      | _ => none
  | .resume i =>
      match s.handlers[i]? with
      | none => none
      | some handler =>
          match handler.stage with
          | .reading calls =>
              match readAnswers calls with
              | none => none
              | some answers =>
                  -- the first peer with a value decides
                  match answers.findSome? id with
                  | some value =>
                      some (s.install i handler ⟨value, .S⟩ (.value handler.request.key value .S))
                  | none => some (s.setStage i .fetching)
          | .fetching =>
              -- no peer had the key, so it is read from the memory of this node
              match (s.nodes handler.node).memoryDb.get? handler.request.key with
              | none => some (s.finish i handler (.error "not_found" 404))
              | some value =>
                  some (s.install i handler ⟨value, .E⟩ (.value handler.request.key value .E))
          | .invalidating value calls =>
              if calls.all (·.2) = true then some (s.setStage i (.writing value)) else none
          | .writing value =>
              some ((s.writeMemory handler.node handler.request.key value).install i handler
                ⟨value, .M⟩ (.ok handler.request.key))
          | .evicting key value response =>
              some ((s.writeMemory handler.node key value).finish i handler response)

/-! ### Nodes and handlers after a step -/

section Frames

variable {s : Cluster ν β} {n m : ν} {i : ℕ} {h h' : Handler ν β} {stage : Stage ν β}

theorem cache_setCache {cache : LruCache β} :
    ((s.setCache n cache).nodes m).cache = if m = n then cache else (s.nodes m).cache := by
  simp only [Cluster.setCache, Cluster.setNode]
  split <;> rfl

@[simp] theorem cache_writeMemory {key : String} {value : β} :
    ((s.writeMemory n key value).nodes m).cache = (s.nodes m).cache := by
  simp only [Cluster.writeMemory, Cluster.setNode]
  split
  · next heq => rw [heq]
  · rfl

omit [DecidableEq ν] in
theorem mem_setStage (hmem : h' ∈ (s.setStage i stage).handlers) :
    h' ∈ s.handlers ∨ ∃ h, s.handlers[i]? = some h ∧ h' = { h with stage := stage } := by
  obtain ⟨j, hj⟩ := List.mem_iff_getElem?.1 hmem
  simp only [Cluster.setStage, List.getElem?_modify] at hj
  split at hj
  · next heq =>
      subst heq
      rw [Option.map_eq_map, Option.map_eq_some_iff] at hj
      obtain ⟨h, hi, rfl⟩ := hj
      exact .inr ⟨h, hi, rfl⟩
  · rw [id_map'] at hj
    exact .inl (List.mem_of_getElem? hj)

/-- An installed entry is in the cache, and the handler has gone or writes back what was evicted. -/
theorem install_cases (s : Cluster ν β) (i : ℕ) (h : Handler ν β) (entry : CacheEntry β)
    (response : Response β) :
    (s.install i h entry response).nodes =
      (s.setCache h.node ((s.nodes h.node).cache.put h.request.key entry).1).nodes ∧
    ∀ h' ∈ (s.install i h entry response).handlers, h' ∈ s.handlers ∨
      ∃ h'' key value response, s.handlers[i]? = some h'' ∧
        h' = { h'' with stage := .evicting key value response } := by
  unfold Cluster.install
  simp only
  split
  · exact ⟨rfl, fun h' hmem => .inl (List.mem_of_mem_eraseIdx hmem)⟩
  · split
    · refine ⟨rfl, fun h' hmem => ?_⟩
      rcases mem_setStage hmem with hmem | ⟨h'', hi, rfl⟩
      · exact .inl hmem
      · exact .inr ⟨h'', _, _, _, hi, rfl⟩
    · exact ⟨rfl, fun h' hmem => .inl (List.mem_of_mem_eraseIdx hmem)⟩

end Frames

/-! ### The ways a step can go -/

/-- The steps of the cluster, one constructor for each way a step can go. -/
inductive Moves (M : Setup ν) (s : Cluster ν β) : Action ν β → Cluster ν β → Prop
  | refuseGet (n : ν) : Moves M s (.get n "") (s.answer n (.get "") (.error "missing_key" 400))
  | refusePut (n : ν) (value : β) :
      Moves M s (.put n "" value) (s.answer n (.put "" value) (.error "missing_key" 400))
  | hit {n : ν} {key : String} {o : ℕ} {entry : CacheEntry β}
      (hget : ((s.nodes n).cache.get key).2 = some (o, entry)) :
      Moves M s (.get n key) ((s.setCache n ((s.nodes n).cache.get key).1).answer n (.get key)
        (.value key entry.value entry.state))
  | miss {n : ν} {key : String} (hkey : key ≠ "") (hget : ((s.nodes n).cache.get key).2 = none) :
      Moves M s (.get n key)
        (s.begin ⟨n, .get key, .reading ((M.peers n).map fun peer => (peer, .sent))⟩)
  | put {n : ν} {key : String} {value : β} (hkey : key ≠ "") :
      Moves M s (.put n key value)
        (s.begin ⟨n, .put key value,
          .invalidating value ((M.peers n).map fun peer => (peer, false))⟩)
  | internalRead {i j : ℕ} {h : Handler ν β} {calls : List (ν × ReadCall β)} {peer : ν}
      (hi : s.handlers[i]? = some h) (hstage : h.stage = .reading calls)
      (hj : calls[j]? = some (peer, .sent)) :
      Moves M s (.internalRead i j)
        ((s.setCache peer
          (CacheNode.internalRead (s.nodes peer).cache (M.queryKey h.request.key)).1).setStage i
          (.reading (calls.set j (peer,
            (CacheNode.internalRead (s.nodes peer).cache (M.queryKey h.request.key)).2))))
  | internalReadDone {i j : ℕ} {h : Handler ν β} {calls : List (ν × ReadCall β)} {peer : ν}
      {o : ℕ} {key : String} {entry : CacheEntry β} (hi : s.handlers[i]? = some h)
      (hstage : h.stage = .reading calls) (hj : calls[j]? = some (peer, .writingBack o))
      (hkey : M.queryKey h.request.key = some key)
      (hobject : (s.nodes peer).cache.objects[o]? = some entry) :
      Moves M s (.internalReadDone i j)
        (((s.writeMemory peer key entry.value).setCache peer
          ((s.nodes peer).cache.setState o .S)).setStage i
          (.reading (calls.set j (peer, .answered (some entry.value)))))
  | internalInvalidate {i j : ℕ} {h : Handler ν β} {value : β} {calls : List (ν × Bool)} {peer : ν}
      (hi : s.handlers[i]? = some h) (hstage : h.stage = .invalidating value calls)
      (hj : calls[j]? = some (peer, false)) :
      Moves M s (.internalInvalidate i j)
        ((s.setCache peer ((s.nodes peer).cache.invalidate h.request.key)).setStage i
          (.invalidating value (calls.set j (peer, true))))
  | found {i : ℕ} {h : Handler ν β} {calls : List (ν × ReadCall β)} {answers : List (Option β)}
      {value : β} (hi : s.handlers[i]? = some h) (hstage : h.stage = .reading calls)
      (hanswers : readAnswers calls = some answers) (hfound : answers.findSome? id = some value) :
      Moves M s (.resume i) (s.install i h ⟨value, .S⟩ (.value h.request.key value .S))
  | notFound {i : ℕ} {h : Handler ν β} {calls : List (ν × ReadCall β)} {answers : List (Option β)}
      (hi : s.handlers[i]? = some h) (hstage : h.stage = .reading calls)
      (hanswers : readAnswers calls = some answers) (hfound : answers.findSome? id = none) :
      Moves M s (.resume i) (s.setStage i .fetching)
  | unknown {i : ℕ} {h : Handler ν β} (hi : s.handlers[i]? = some h) (hstage : h.stage = .fetching)
      (hmemory : (s.nodes h.node).memoryDb.get? h.request.key = none) :
      Moves M s (.resume i) (s.finish i h (.error "not_found" 404))
  | fetched {i : ℕ} {h : Handler ν β} {value : β} (hi : s.handlers[i]? = some h)
      (hstage : h.stage = .fetching)
      (hmemory : (s.nodes h.node).memoryDb.get? h.request.key = some value) :
      Moves M s (.resume i) (s.install i h ⟨value, .E⟩ (.value h.request.key value .E))
  | invalidated {i : ℕ} {h : Handler ν β} {value : β} {calls : List (ν × Bool)}
      (hi : s.handlers[i]? = some h) (hstage : h.stage = .invalidating value calls)
      (hcalls : ∀ call ∈ calls, call.2 = true) : Moves M s (.resume i) (s.setStage i (.writing value))
  | written {i : ℕ} {h : Handler ν β} {value : β} (hi : s.handlers[i]? = some h)
      (hstage : h.stage = .writing value) :
      Moves M s (.resume i) ((s.writeMemory h.node h.request.key value).install i h ⟨value, .M⟩
        (.ok h.request.key))
  | evicted {i : ℕ} {h : Handler ν β} {key : String} {value : β} {response : Response β}
      (hi : s.handlers[i]? = some h) (hstage : h.stage = .evicting key value response) :
      Moves M s (.resume i) ((s.writeMemory h.node key value).finish i h response)

theorem moves_of_step {M : Setup ν} {s s' : Cluster ν β} {a : Action ν β}
    (h : step M s a = some s') : Moves M s a s' := by
  cases a with
  | get n key =>
      simp only [step] at h
      split at h
      · next hkey =>
          subst hkey
          cases h
          exact .refuseGet n
      · next hkey =>
          split at h
          · next cache o entry hget =>
              cases h
              have hfound : ((s.nodes n).cache.get key).2 = some (o, entry) := by rw [hget]
              have hmove : Moves M s (.get n key) _ := .hit hfound
              rwa [hget] at hmove
          · next cache hget =>
              cases h
              exact .miss hkey (by rw [hget])
  | put n key value =>
      simp only [step] at h
      split at h
      · next hkey =>
          subst hkey
          cases h
          exact .refusePut n value
      · next hkey =>
          cases h
          exact .put hkey
  | internalRead i j =>
      simp only [step] at h
      split at h
      · next n request calls hi =>
          split at h
          · next peer hj =>
              cases h
              exact .internalRead hi rfl hj
          · cases h
      · cases h
  | internalReadDone i j =>
      simp only [step] at h
      split at h
      · next n request calls hi =>
          split at h
          · next peer o key hj hkey =>
              split at h
              · cases h
              · next entry hobject =>
                  cases h
                  exact .internalReadDone hi rfl hj hkey hobject
          · cases h
      · cases h
  | internalInvalidate i j =>
      simp only [step] at h
      split at h
      · next n request value calls hi =>
          split at h
          · next peer hj =>
              cases h
              exact .internalInvalidate hi rfl hj
          · cases h
      · cases h
  | resume i =>
      simp only [step] at h
      split at h
      · cases h
      · next handler hi =>
          split at h
          · next calls hstage =>
              split at h
              · cases h
              · next answers hanswers =>
                  split at h
                  · next value hfound =>
                      cases h
                      exact .found hi hstage hanswers hfound
                  · next hfound =>
                      cases h
                      exact .notFound hi hstage hanswers hfound
          · next hstage =>
              split at h
              · next hmemory =>
                  cases h
                  exact .unknown hi hstage hmemory
              · next value hmemory =>
                  cases h
                  exact .fetched hi hstage hmemory
          · next value calls hstage =>
              split at h
              · next hcalls =>
                  cases h
                  exact .invalidated hi hstage fun call hcall => List.all_eq_true.1 hcalls call hcall
              · cases h
          · next value hstage =>
              cases h
              exact .written hi hstage
          · next key value response hstage =>
              cases h
              exact .evicted hi hstage

end Step

end CacheNode
