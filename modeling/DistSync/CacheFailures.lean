/-
**Requests one after another, with peers that cannot be reached.**

Here a request of a client runs to its end before the next one begins, and every broadcast reaches
some of the peers only.  A peer that cannot be reached does not serve its call; `handle_get` passes
over it, and `handle_put` logs it and goes on.  Values are those of JSON, and `isNull` tells which
of them is null.

A put that has answered leaves its value and the copies of the peers that it could not reach.  Later
gets spread these, and what a get finds in the memory of its own node when it gets nothing from its
peers.

Main definitions:

* `CacheNode.handleGet`, `CacheNode.handlePut` — **the two handlers**, to their ends;
* `CacheNode.Serves` — the values that a node serves from its cache;
* `CacheNode.Supplied` — a step in which no get falls back to another value.

Main results:

* `CacheNode.clean_handlePut_iff` — what a put leaves;
* `CacheNode.clean_handleGet` — what a get spreads;
* `CacheNode.leavesNoStale` — **a put leaves no other copy behind**, when each peer that it misses
  has none, and none comes out of a memory;
* `CacheNode.leavesNoStale_fails` — a missed peer, and an old memory.
-/

import DistSync.CacheCoherence
import DistSync.CacheServer

set_option relaxedAutoImplicit false
set_option autoImplicit false

namespace CacheNode

open Runs

variable {ν β : Type*}

/-! ### Handlers -/

/-- `handle_internal_read`, for the key that the node has read from the URL. -/
def handleInternalRead (node : DistributedCacheNode β) :
    Option String → DistributedCacheNode β × Option β
  | none => (node, none)
  | some key =>
      match node.cache.get key with
      | (_, none) => (node, none)
      | (cache, some (o, entry)) =>
          match entry.state with
          | .M => (⟨cache.setState o .S, node.memoryDb.set key entry.value⟩, some entry.value)
          | .E => ({ node with cache := cache.setState o .S }, some entry.value)
          | _ => ({ node with cache := cache }, some entry.value)

/-- `handle_internal_invalidate`. -/
def handleInternalInvalidate (node : DistributedCacheNode β) (key : String) :
    DistributedCacheNode β :=
  { node with cache := node.cache.invalidate key }

/-- The end of both handlers: the entry is put into the cache, and a modified entry that was evicted
is written back. -/
def DistributedCacheNode.install (node : DistributedCacheNode β) (key : String)
    (entry : CacheEntry β) : DistributedCacheNode β :=
  match node.cache.put key entry with
  | (cache, none) => { node with cache := cache }
  | (cache, some (evictedKey, evicted)) =>
      if evicted.state = .M then ⟨cache, node.memoryDb.set evictedKey evicted.value⟩
      else { node with cache := cache }

/-- The nodes after each peer that is reached has served a call. -/
def broadcast (peers : List ν) (reached : ν → Bool) [DecidableEq ν]
    (serve : DistributedCacheNode β → DistributedCacheNode β)
    (nodes : ν → DistributedCacheNode β) : ν → DistributedCacheNode β :=
  fun m => if m ∈ peers ∧ reached m = true then serve (nodes m) else nodes m

section Handlers

variable [DecidableEq ν] (M : Setup ν) (isNull : β → Bool)

/-- The value that the first peer with an answer has found. -/
def peerData (reached : ν → Bool) (n : ν) (key : String) (nodes : ν → DistributedCacheNode β) :
    Option β :=
  (M.peers n).findSome? fun peer =>
    if reached peer = true then (handleInternalRead (nodes peer) (M.queryKey key)).2 else none

/-- `handle_get`.  A null is no value. -/
def handleGet (reached : ν → Bool) (n : ν) (key : String) (nodes : ν → DistributedCacheNode β) :
    (ν → DistributedCacheNode β) × Response β :=
  if key = "" then (nodes, .error "missing_key" 400)
  else
    match (nodes n).cache.get key with
    | (cache, some (_, entry)) =>
        (Function.update nodes n { nodes n with cache := cache },
          .value key entry.value entry.state)
    | (_, none) =>
        let asked := broadcast (M.peers n) reached
          (fun node => (handleInternalRead node (M.queryKey key)).1) nodes
        match (peerData M reached n key nodes).filter fun value => !isNull value with
        | some value =>
            (Function.update asked n ((asked n).install key ⟨value, .S⟩), .value key value .S)
        | none =>
            -- no peer has given a value, so it is read from the memory of this node
            match ((asked n).memoryDb.get? key).filter fun value => !isNull value with
            | some value =>
                (Function.update asked n ((asked n).install key ⟨value, .E⟩), .value key value .E)
            | none => (asked, .error "not_found" 404)

/-- `handle_put`.  Peers that cannot be reached are not waited for. -/
def handlePut (reached : ν → Bool) (n : ν) (key : String) (value : β)
    (nodes : ν → DistributedCacheNode β) : (ν → DistributedCacheNode β) × Response β :=
  if key = "" then (nodes, .error "missing_key" 400)
  else
    let told := broadcast (M.peers n) reached (fun node => handleInternalInvalidate node key) nodes
    let written := { told n with memoryDb := (told n).memoryDb.set key value }
    (Function.update told n (written.install key ⟨value, .M⟩), .ok key)

/-- A request of a client at a node, with the peers that its broadcast reaches. -/
structure Call (ν β : Type*) where
  reached : ν → Bool
  node : ν
  request : Request β

/-- The nodes after a request. -/
def serve (nodes : ν → DistributedCacheNode β) (call : Call ν β) : ν → DistributedCacheNode β :=
  match call.request with
  | .get key => (handleGet M isNull call.reached call.node key nodes).1
  | .put key value => (handlePut M call.reached call.node key value nodes).1

/-- The nodes after their start. -/
def started (capacity : ν → ℕ) : ν → DistributedCacheNode β := fun n => ⟨.empty (capacity n), ∅⟩

end Handlers

/-! ### What the nodes serve -/

/-- The node serves the value from its cache. -/
def Serves (node : DistributedCacheNode β) (k : String) (v : β) : Prop :=
  ∃ o entry, (node.cache.get k).2 = some (o, entry) ∧ entry.value = v

/-- Only values with `P` are served for the key. -/
def Clean (k : String) (P : β → Prop) (nodes : ν → DistributedCacheNode β) : Prop :=
  ∀ m v, Serves (nodes m) k v → P v

theorem serves_iff {node : DistributedCacheNode β} {k : String} {v : β} :
    Serves node k v ↔ ∃ e, node.cache.copy k = some e ∧ e.state ≠ .I ∧ e.value = v := by
  constructor
  · rintro ⟨o, entry, hget, hvalue⟩
    obtain ⟨-, -, hcopy, hvalid, -⟩ := LruCache.get_eq_some hget
    exact ⟨entry, hcopy, hvalid, hvalue⟩
  · rintro ⟨e, hcopy, hvalid, hvalue⟩
    cases hget : (node.cache.get k).2 with
    | none => exact absurd ((LruCache.get_eq_none hget).2 e hcopy) hvalid
    | some found =>
        obtain ⟨o, entry⟩ := found
        obtain ⟨-, -, hcopy', -, -⟩ := LruCache.get_eq_some hget
        obtain rfl : entry = e := Option.some.inj (hcopy'.symm.trans hcopy)
        exact ⟨o, entry, hget, hvalue⟩

/-- What a weaker cache serves was served before. -/
theorem Serves.of_weakens {node node' : DistributedCacheNode β} {k : String} {v : β}
    (hweak : LruCache.Weakens k node.cache node'.cache) (h : Serves node' k v) :
    Serves node k v := by
  obtain ⟨e', hcopy, hvalid, hvalue⟩ := serves_iff.1 h
  obtain ⟨-, e, hcopy₀, hvalid₀, hsame, -⟩ := hweak e' hcopy hvalid
  exact serves_iff.2 ⟨e, hcopy₀, hvalid₀, hsame.trans hvalue⟩

section Handlers

variable {node : DistributedCacheNode β} {key k : String} {entry : CacheEntry β} {v w : β}

theorem cache_install :
    (node.install key entry).cache = (node.cache.put key entry).1 := by
  unfold DistributedCacheNode.install
  cases node.cache.put key entry with
  | mk cache evicted =>
      cases evicted with
      | none => rfl
      | some evicted =>
          obtain ⟨evictedKey, evicted⟩ := evicted
          simp only
          split <;> rfl

/-- An entry of another key takes nothing of this key with it but the place. -/
theorem Serves.of_install_ne (hne : k ≠ key) (h : Serves (node.install key entry) k v) :
    Serves node k v :=
  h.of_weakens (by
    rw [cache_install]
    exact LruCache.weakens_put hne entry)

/-- Of the key itself the new entry is served. -/
theorem Serves.of_install (h : Serves (node.install k entry) k v) : v = entry.value := by
  obtain ⟨e, hcopy, -, hvalue⟩ := serves_iff.1 h
  rw [cache_install] at hcopy
  rw [← hvalue, LruCache.copy_put_self entry hcopy]

/-- What `handle_internal_read` does: nothing, or it makes the entry it has found shared. -/
theorem handleInternalRead_cases (node : DistributedCacheNode β) (key : String) :
    ((node.cache.get key).2 = none ∧ handleInternalRead node (some key) = (node, none)) ∨
    ∃ o entry, (node.cache.get key).2 = some (o, entry) ∧
      (handleInternalRead node (some key)).2 = some entry.value ∧
      ((handleInternalRead node (some key)).1.cache = node.cache.touch key ∨
        (handleInternalRead node (some key)).1.cache = (node.cache.touch key).setState o .S) := by
  cases hget : (node.cache.get key).2 with
  | none =>
      have hpair : node.cache.get key = (node.cache, none) :=
        Prod.ext (LruCache.get_eq_none hget).1 hget
      refine .inl ⟨rfl, ?_⟩
      simp only [handleInternalRead, hpair]
  | some found =>
      obtain ⟨o, entry⟩ := found
      have hpair : node.cache.get key = (node.cache.touch key, some (o, entry)) :=
        Prod.ext (LruCache.get_eq_some hget).2.2.2.2 hget
      refine .inr ⟨o, entry, rfl, ?_⟩
      simp only [handleInternalRead, hpair]
      cases entry.state with
      | M => exact ⟨rfl, .inr rfl⟩
      | E => exact ⟨rfl, .inr rfl⟩
      | S => exact ⟨rfl, .inl rfl⟩
      | I => exact ⟨rfl, .inl rfl⟩

/-- A peer that is asked serves what it has served before. -/
theorem Serves.of_handleInternalRead {read : Option String}
    (h : Serves (handleInternalRead node read).1 k v) : Serves node k v := by
  cases read with
  | none => exact h
  | some key =>
      rcases handleInternalRead_cases node key with ⟨-, heq⟩ | ⟨o, entry, hget, -, heq⟩
      · rwa [heq] at h
      · refine h.of_weakens ?_
        rcases heq with heq | heq
        · rw [heq]
          exact LruCache.weakens_touch
        · rw [heq]
          refine LruCache.weakens_setState_S (c := node.cache.touch key) fun hkey => ?_
          obtain ⟨hentry, -, hcopy, hvalid, -⟩ := LruCache.get_eq_some hget
          have hsame : k = key := node.cache.owner k key o hkey hentry
          exact ⟨entry, hsame ▸ hcopy, hvalid⟩

/-- A peer answers with what it serves. -/
theorem serves_of_handleInternalRead (h : (handleInternalRead node (some key)).2 = some v) :
    Serves node key v := by
  rcases handleInternalRead_cases node key with ⟨-, heq⟩ | ⟨o, entry, hget, hread, -⟩
  · rw [heq] at h
    cases h
  · rw [hread] at h
    exact ⟨o, entry, hget, Option.some.inj h⟩

/-- An invalidated key is not served. -/
theorem not_serves_handleInternalInvalidate :
    ¬ Serves (handleInternalInvalidate node k) k v := by
  intro h
  obtain ⟨e, hcopy, hvalid, -⟩ := serves_iff.1 h
  exact hvalid (LruCache.copy_invalidate_self hcopy)

theorem Serves.of_handleInternalInvalidate (h : Serves (handleInternalInvalidate node key) k v) :
    Serves node k v :=
  h.of_weakens (LruCache.weakens_invalidate _ _ _)

end Handlers

/-! ### What a request leaves -/

section Requests

variable [DecidableEq ν] {M : Setup ν} {isNull : β → Bool} {reached : ν → Bool} {n : ν}
  {nodes : ν → DistributedCacheNode β} {k key : String} {v w : β} {P : β → Prop}

theorem Clean.broadcast {peers : List ν} {serve : DistributedCacheNode β → DistributedCacheNode β}
    (hserve : ∀ node w, Serves (serve node) k w → Serves node k w) (h : Clean k P nodes) :
    Clean k P (broadcast peers reached serve nodes) := by
  intro m w hw
  unfold CacheNode.broadcast at hw
  split at hw
  · exact h m w (hserve _ _ hw)
  · exact h m w hw

theorem Clean.update {node : DistributedCacheNode β}
    (h : ∀ m, m ≠ n → ∀ w, Serves (nodes m) k w → P w) (hnode : ∀ w, Serves node k w → P w) :
    Clean k P (Function.update nodes n node) := by
  intro m w hw
  by_cases hm : m = n
  · subst hm
    rw [Function.update_self] at hw
    exact hnode w hw
  · rw [Function.update_of_ne hm] at hw
    exact h m hm w hw

/-- **What a put leaves**: its value, and the copies of the peers that it has not reached. -/
theorem clean_handlePut_iff (hkey : k ≠ "") (hv : P v) :
    Clean k P (handlePut M reached n k v nodes).1 ↔
      ∀ m, m ≠ n → reached m = false → ∀ w, Serves (nodes m) k w → P w := by
  rw [handlePut, if_neg hkey]
  constructor
  · intro h m hm hmissed w hw
    refine h m w ?_
    have hsame : broadcast (M.peers n) reached (fun node => handleInternalInvalidate node k) nodes
        m = nodes m := if_neg fun hreached => Bool.false_ne_true (hmissed.symm.trans hreached.2)
    simp only [Function.update_of_ne hm, hsame]
    exact hw
  · intro h
    refine Clean.update (fun m hm w hw => ?_) fun w hw => ?_
    · unfold broadcast at hw
      split at hw
      · exact absurd hw not_serves_handleInternalInvalidate
      · next hmissed =>
          refine h m hm ?_ w hw
          have hnot := fun hreached => hmissed ⟨M.all_peers n m hm, hreached⟩
          exact Bool.eq_false_iff.2 hnot
    · rw [hw.of_install]
      exact hv

/-- A put of another key. -/
theorem Clean.handlePut (hne : k ≠ key) (h : Clean k P nodes) :
    Clean k P (handlePut M reached n key v nodes).1 := by
  unfold CacheNode.handlePut
  split
  · exact h
  · have htold : Clean k P (CacheNode.broadcast (M.peers n) reached
        (fun node => handleInternalInvalidate node key) nodes) :=
      h.broadcast fun _ _ hw => hw.of_handleInternalInvalidate
    refine Clean.update (fun m _ w hw => htold m w hw) fun w hw => ?_
    have hserved := hw.of_install_ne hne
    exact htold n w hserved

/-- What a get of the key takes over from the memory of its node is a value with `P`. -/
def FallsBackTo (M : Setup ν) (isNull : β → Bool) (k : String) (P : β → Prop)
    (nodes : ν → DistributedCacheNode β) (reached : ν → Bool) (n : ν) : Prop :=
  ((nodes n).cache.get k).2 = none →
    ((peerData M reached n k nodes).filter fun value => !isNull value) = none →
    ∀ w, (nodes n).memoryDb.get? k = some w → isNull w = false → P w

omit [DecidableEq ν] in
/-- What the peers give is served by one of them, under the key that it has read from the URL. -/
theorem serves_of_peerData (hquery : M.queryKey key = some k)
    (hdata : peerData M reached n key nodes = some w) :
    ∃ m ∈ M.peers n, reached m = true ∧ Serves (nodes m) k w := by
  obtain ⟨m, hm, hread⟩ := List.exists_of_findSome?_eq_some hdata
  rw [hquery] at hread
  split at hread
  · next hreached => exact ⟨m, hm, hreached, serves_of_handleInternalRead hread⟩
  · cases hread

/-- A node that has missed the key in its cache is not changed by its own broadcast. -/
theorem broadcast_self (hmiss : ((nodes n).cache.get k).2 = none) (hquery : M.queryKey k = some k) :
    broadcast (M.peers n) reached (fun node => (handleInternalRead node (M.queryKey k)).1) nodes n =
      nodes n := by
  unfold broadcast
  split
  · show (handleInternalRead (nodes n) (M.queryKey k)).1 = nodes n
    rw [hquery]
    rcases handleInternalRead_cases (nodes n) k with ⟨-, heq⟩ | ⟨o, entry, hget, -⟩
    · rw [heq]
    · rw [hmiss] at hget
      cases hget
  · rfl

/-- **What a get spreads**: values that are served already, or one from the memory of its node. -/
theorem clean_handleGet (h : Clean k P nodes)
    (hok : key = k → M.queryKey k = some k ∧ FallsBackTo M isNull k P nodes reached n) :
    Clean k P (handleGet M isNull reached n key nodes).1 := by
  unfold handleGet
  split
  · exact h
  have hasked : Clean k P (broadcast (M.peers n) reached
      (fun node => (handleInternalRead node (M.queryKey key)).1) nodes) :=
    h.broadcast fun _ _ hw => hw.of_handleInternalRead
  -- the new entry, if it is one of the key
  have hinstall : ∀ entry : CacheEntry β, (key = k → P entry.value) →
      Clean k P (Function.update (broadcast (M.peers n) reached
        (fun node => (handleInternalRead node (M.queryKey key)).1) nodes) n
          ((broadcast (M.peers n) reached (fun node =>
            (handleInternalRead node (M.queryKey key)).1) nodes n).install key entry)) := by
    intro entry hentry
    refine Clean.update (fun m _ w hw => hasked m w hw) fun w hw => ?_
    by_cases heq : key = k
    · subst heq
      rw [hw.of_install]
      exact hentry rfl
    · exact hasked n w (hw.of_install_ne (Ne.symm heq))
  split
  · next cache o entry hget =>
      refine Clean.update (fun m _ w hw => h m w hw) fun w hw => h n w (hw.of_weakens ?_)
      have hfound : ((nodes n).cache.get key).2 = some (o, entry) := by rw [hget]
      obtain rfl : cache = (nodes n).cache.touch key := by
        rw [← (LruCache.get_eq_some hfound).2.2.2.2, hget]
      exact LruCache.weakens_touch
  · next cache hget =>
      have hmiss : ((nodes n).cache.get key).2 = none := by rw [hget]
      simp only
      split
      · next value hvalue =>
          refine hinstall _ fun heq => ?_
          subst heq
          obtain ⟨m, -, -, hserves⟩ :=
            serves_of_peerData (hok rfl).1 (Option.filter_eq_some_iff.1 hvalue).1
          exact h m _ hserves
      · next hnone =>
          split
          · next value hvalue =>
              refine hinstall _ fun heq => ?_
              subst heq
              obtain ⟨hmemory, hnull⟩ := Option.filter_eq_some_iff.1 hvalue
              rw [broadcast_self hmiss (hok rfl).1] at hmemory
              exact (hok rfl).2 hmiss hnone value hmemory (by simpa using hnull)
          · exact hasked

/-! ### Until the next put -/

/-- **A request that brings no other value**: it is no put of the key, and a get of it that falls
back to the memory of its node finds a value with `P` there, or none. -/
def Supplied (M : Setup ν) (isNull : β → Bool) (k : String) (P : β → Prop)
    (nodes : ν → DistributedCacheNode β) (call : Call ν β) : Prop :=
  match call.request with
  | .put key _ => key ≠ k
  | .get key => key = k → FallsBackTo M isNull k P nodes call.reached call.node

theorem Clean.serve {call : Call ν β} (h : Clean k P nodes) (hquery : M.queryKey k = some k)
    (hok : Supplied M isNull k P nodes call) : Clean k P (serve M isNull nodes call) := by
  obtain ⟨reached, n, request⟩ := call
  cases request with
  | put key value => exact h.handlePut (Ne.symm hok)
  | get key => exact clean_handleGet h fun heq => ⟨hquery, hok heq⟩

/-- **A put leaves no other copy behind.**  `P` is true of the value that was put.  Right after the
put, all nodes serve values with `P` only exactly if those peers do that the put has missed; and then
this stays so until the next put of the key, as long as no get brings another value out of a
memory. -/
theorem leavesNoStale (hkey : k ≠ "") (hquery : M.queryKey k = some k) (hv : P v) :
    (handlePut M reached n k v nodes).2 = .ok k ∧
    (Clean k P (handlePut M reached n k v nodes).1 ↔
      ∀ m, m ≠ n → reached m = false → ∀ w, Serves (nodes m) k w → P w) ∧
    ∀ nodes', Clean k P (handlePut M reached n k v nodes).1 →
      Run (fun nodes call => some (serve M isNull nodes call)) (Supplied M isNull k P)
        (handlePut M reached n k v nodes).1 nodes' → Clean k P nodes' := by
  refine ⟨by rw [handlePut, if_neg hkey], clean_handlePut_iff hkey hv, fun nodes' hclean hrun => ?_⟩
  refine hrun.invariant (I := fun nodes => Clean k P nodes) (fun t call t' h hok hstep => ?_) hclean
  cases hstep
  exact h.serve hquery hok

end Requests

/-! ### Two nodes -/

/-- Nobody is missed that has a copy, so the second node gets the value from the first one. -/
theorem leavesNoStale_nobodyReached :
    ∃ nodes : Fin 2 → DistributedCacheNode ℕ,
      nodes = serve pair (fun _ => false)
        (handlePut pair (fun _ => false) 0 "k" 2 (started fun _ => 1)).1
        ⟨fun _ => true, 1, .get "k"⟩ ∧
      Serves (nodes 1) "k" 2 ∧ Clean "k" (· = 2) nodes := by
  refine ⟨_, rfl, ⟨0, ⟨2, .S⟩, by decide, rfl⟩, ?_⟩
  obtain ⟨-, hiff, hlater⟩ := @leavesNoStale (Fin 2) ℕ _ pair (fun _ => false) (fun _ => false) 0
    (started fun _ => 1) "k" 2 (· = 2) (by decide) rfl rfl
  have hsupplied : Supplied pair (fun _ => false) "k" (· = 2)
      (handlePut pair (fun _ => false) 0 "k" 2 (started fun _ => 1)).1
      ⟨fun _ => true, 1, .get "k"⟩ := fun _ _ hdata => absurd hdata (by decide)
  refine hlater _ (hiff.2 fun m _ _ w hw => ?_) (Run.single hsupplied rfl)
  obtain ⟨o, entry, hget, -⟩ := hw
  cases hget

/-- All peers are reached. -/
def everyone (_ : ν) : Bool := true

/-- A peer that was missed goes on serving what it has; and where no cache has the key any more, a
get at a node brings back what was put there before. -/
theorem leavesNoStale_fails :
    (¬ ∀ (before after : List (Call (Fin 2) ℕ)) (reached : Fin 2 → Bool),
      (∀ call ∈ after, ∀ w, call.request ≠ .put "k" w) →
        Clean "k" (· = 2) (after.foldl (serve pair fun _ => false)
          (handlePut pair reached 0 "k" 2
            (before.foldl (serve pair fun _ => false) (started fun _ => 1))).1)) ∧
    ¬ ∀ before after : List (Call (Fin 2) ℕ),
      (∀ call ∈ before ++ after, call.reached = everyone) →
      (∀ call ∈ after, ∀ w, call.request ≠ .put "k" w) →
        Clean "k" (· = 2) (after.foldl (serve pair fun _ => false)
          (handlePut pair everyone 0 "k" 2
            (before.foldl (serve pair fun _ => false) (started fun _ => 1))).1) := by
  constructor
  · intro hall
    have hclean := hall [⟨everyone, 1, .put "k" 1⟩] [] (fun _ => false)
      fun _ hmem => absurd hmem List.not_mem_nil
    cases hclean 1 1 ⟨0, ⟨1, .M⟩, by decide, rfl⟩
  · intro hall
    have hclean := hall [⟨everyone, 1, .put "k" 1⟩]
      [⟨everyone, 0, .put "l" 3⟩, ⟨everyone, 1, .get "k"⟩] (by simp) (by simp)
    cases hclean 1 1 ⟨1, ⟨1, .E⟩, by decide, rfl⟩

end CacheNode
