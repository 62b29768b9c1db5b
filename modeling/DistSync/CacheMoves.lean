/-
**What a step of the cluster can do.**

Whatever requests run beside each other, a step has few effects on a key.  It can bring a value of
the key into the cache of a node: a handler installs its entry there, or a read that has written an
entry back makes it shared.  It can write a value to the memory of a node.  All other steps leave
the valid copies as they are, or make them fewer.  And a handler that runs after the step ran before
it, or has just begun, or has gone on from its place to the next one.

These facts hold in every state, so invariants about one key need not look at the steps again.

Main definitions:

* `CacheNode.Installs` — a handler that installs an entry;
* `CacheNode.Brings`, `CacheNode.Writes` — what comes into a cache, and into a memory;
* `CacheNode.Follows`, `CacheNode.Goes` — the handlers that run after a step, and what has become of
  those that ran before it;
* `CacheNode.Tells` — the answers that a step can give.

Main results:

* `CacheNode.valid_of_moves`, `CacheNode.memory_of_moves` — **nothing else comes into a cache or a
  memory**;
* `CacheNode.keeps_of_moves` — objects keep their values;
* `CacheNode.follows_of_moves`, `CacheNode.goes_of_moves`, `CacheNode.tells_of_moves` — handlers and
  answers.
-/

import DistSync.CacheHistory

set_option relaxedAutoImplicit false
set_option autoImplicit false

namespace CacheNode

variable {ν β : Type*} [DecidableEq ν]

/-! ### Effects -/

/-- A handler installs an entry, and will answer so. -/
inductive Installs (s : Cluster ν β) :
    Action ν β → Handler ν β → CacheEntry β → Response β → Prop
  | found {i : ℕ} {h : Handler ν β} {calls : List (ν × ReadCall β)} {answers : List (Option β)}
      {value : β} (hi : s.handlers[i]? = some h) (hstage : h.stage = .reading calls)
      (hanswers : readAnswers calls = some answers) (hfound : answers.findSome? id = some value) :
      Installs s (.resume i) h ⟨value, .S⟩ (.value h.request.key value .S)
  | fetched {i : ℕ} {h : Handler ν β} {value : β} (hi : s.handlers[i]? = some h)
      (hstage : h.stage = .fetching)
      (hmemory : (s.nodes h.node).memoryDb.get? h.request.key = some value) :
      Installs s (.resume i) h ⟨value, .E⟩ (.value h.request.key value .E)
  | written {i : ℕ} {h : Handler ν β} {value : β} (hi : s.handlers[i]? = some h)
      (hstage : h.stage = .writing value) :
      Installs s (.resume i) h ⟨value, .M⟩ (.ok h.request.key)

/-- A read that has written back an object of a node. -/
structure WritesBack (M : Setup ν) (s : Cluster ν β) (a : Action ν β) (p : ν) (o : ℕ)
    (key : String) (entry : CacheEntry β) : Prop where
  running : ∃ i j h calls, a = .internalReadDone i j ∧ s.handlers[i]? = some h ∧
    h.stage = .reading calls ∧ calls[j]? = some (p, .writingBack o) ∧
    M.queryKey h.request.key = some key
  object : (s.nodes p).cache.objects[o]? = some entry

/-- **A value of a key comes into the cache of a node.** -/
inductive Brings (M : Setup ν) (s : Cluster ν β) (a : Action ν β) (m : ν) (key : String)
    (value : β) : Prop
  | installed {h : Handler ν β} {entry : CacheEntry β} {response : Response β}
      (hinstalls : Installs s a h entry response) (hnode : h.node = m) (hkey : h.request.key = key)
      (hvalue : entry.value = value)
  | revived {o : ℕ} {key' : String} {entry : CacheEntry β}
      (hback : WritesBack M s a m o key' entry)
      (hentry : (s.nodes m).cache.entries.get? key = some o) (hvalue : entry.value = value)

/-- **A value of a key is written to the memory of a node.** -/
inductive Writes (M : Setup ν) (s : Cluster ν β) (a : Action ν β) (m : ν) (key : String)
    (value : β) : Prop
  | put {i : ℕ} {h : Handler ν β} (ha : a = .resume i) (hi : s.handlers[i]? = some h)
      (hstage : h.stage = .writing value) (hnode : h.node = m) (hkey : h.request.key = key)
  | readBack {o : ℕ} {entry : CacheEntry β} (hback : WritesBack M s a m o key entry)
      (hvalue : entry.value = value)
  | evicted {i : ℕ} {h : Handler ν β} {response : Response β} (ha : a = .resume i)
      (hi : s.handlers[i]? = some h) (hstage : h.stage = .evicting key value response)
      (hnode : h.node = m)

/-- **The handlers that run after a step.** -/
inductive Follows (M : Setup ν) (s : Cluster ν β) (a : Action ν β) : Handler ν β → Prop
  | same {h : Handler ν β} (hmem : h ∈ s.handlers) : Follows M s a h
  | get {n : ν} {key : String} (ha : a = .get n key)
      (hmiss : ((s.nodes n).cache.get key).2 = none) :
      Follows M s a ⟨n, .get key, .reading ((M.peers n).map fun peer => (peer, .sent))⟩
  | put {n : ν} {key : String} {value : β} (ha : a = .put n key value) :
      Follows M s a
        ⟨n, .put key value, .invalidating value ((M.peers n).map fun peer => (peer, false))⟩
  | read {i j : ℕ} {h : Handler ν β} {calls : List (ν × ReadCall β)} {peer : ν}
      (hi : s.handlers[i]? = some h) (hstage : h.stage = .reading calls)
      (hj : calls[j]? = some (peer, .sent)) :
      Follows M s a { h with stage := .reading (calls.set j (peer,
        (internalRead (s.nodes peer).cache (M.queryKey h.request.key)).2)) }
  | readBack {i j : ℕ} {h : Handler ν β} {calls : List (ν × ReadCall β)} {peer : ν} {o : ℕ}
      {entry : CacheEntry β} (hi : s.handlers[i]? = some h) (hstage : h.stage = .reading calls)
      (hj : calls[j]? = some (peer, .writingBack o))
      (hobject : (s.nodes peer).cache.objects[o]? = some entry) :
      Follows M s a { h with stage := .reading (calls.set j (peer, .answered (some entry.value))) }
  | invalidate {i j : ℕ} {h : Handler ν β} {value : β} {calls : List (ν × Bool)} {peer : ν}
      (ha : a = .internalInvalidate i j) (hi : s.handlers[i]? = some h)
      (hstage : h.stage = .invalidating value calls) (hj : calls[j]? = some (peer, false)) :
      Follows M s a { h with stage := .invalidating value (calls.set j (peer, true)) }
  | fetch {i : ℕ} {h : Handler ν β} {calls : List (ν × ReadCall β)}
      (hi : s.handlers[i]? = some h) (hstage : h.stage = .reading calls) :
      Follows M s a { h with stage := .fetching }
  | write {i : ℕ} {h : Handler ν β} {value : β} {calls : List (ν × Bool)}
      (hi : s.handlers[i]? = some h) (hstage : h.stage = .invalidating value calls)
      (hcalls : ∀ call ∈ calls, call.2 = true) : Follows M s a { h with stage := .writing value }
  | evict {h : Handler ν β} {entry evicted : CacheEntry β} {response : Response β} {key : String}
      (hmem : h ∈ s.handlers) (hinstalls : Installs s a h entry response)
      (hput : ((s.nodes h.node).cache.put h.request.key entry).2 = some (key, evicted))
      (hmodified : evicted.state = .M) :
      Follows M s a { h with stage := .evicting key evicted.value response }

/-- **What becomes of a running handler in a step.** -/
inductive Goes (s : Cluster ν β) (a : Action ν β) (s' : Cluster ν β) (h : Handler ν β) : Prop
  | stays (hmem : h ∈ s'.handlers)
  | read {calls calls' : List (ν × ReadCall β)} (hstage : h.stage = .reading calls)
      (hnext : { h with stage := .reading calls' } ∈ s'.handlers)
  | fetch {calls : List (ν × ReadCall β)} (hstage : h.stage = .reading calls)
      (hnext : { h with stage := .fetching } ∈ s'.handlers)
  | invalidate {j : ℕ} {value : β} {calls : List (ν × Bool)} {peer : ν}
      (hstage : h.stage = .invalidating value calls) (hj : calls[j]? = some (peer, false))
      (hcache : (s'.nodes peer).cache = (s.nodes peer).cache.invalidate h.request.key)
      (hnext : { h with stage := .invalidating value (calls.set j (peer, true)) } ∈ s'.handlers)
  | write {value : β} {calls : List (ν × Bool)} (hstage : h.stage = .invalidating value calls)
      (hcalls : ∀ call ∈ calls, call.2 = true)
      (hnext : { h with stage := .writing value } ∈ s'.handlers)
  | installs {entry : CacheEntry β} {response : Response β}
      (hinstalls : Installs s a h entry response)
      (hcache : (s'.nodes h.node).cache =
        ((s.nodes h.node).cache.put h.request.key entry).1)
      (hmemory : ∀ value, h.stage = .writing value →
        (s'.nodes h.node).memoryDb.get? h.request.key = some value)
  | unknown (hstage : h.stage = .fetching)
  | ends {key : String} {value : β} {response : Response β}
      (hstage : h.stage = .evicting key value response)

/-- **The answers that a step can give.** -/
inductive Tells (s : Cluster ν β) (a : Action ν β) : Answer ν β → Prop
  | refused {n : ν} {request : Request β} (hkey : request.key = "") :
      Tells s a (n, request, .error "missing_key" 400)
  | hit {n : ν} {key : String} {entry : CacheEntry β} (ha : a = .get n key)
      (hvalid : Valid s n key entry) :
      Tells s a (n, .get key, .value key entry.value entry.state)
  | unknown {i : ℕ} {h : Handler ν β} (ha : a = .resume i) (hi : s.handlers[i]? = some h)
      (hstage : h.stage = .fetching)
      (hmemory : (s.nodes h.node).memoryDb.get? h.request.key = none) :
      Tells s a (h.node, h.request, .error "not_found" 404)
  | installed {h : Handler ν β} {entry : CacheEntry β} {response : Response β}
      (hmem : h ∈ s.handlers) (hinstalls : Installs s a h entry response) :
      Tells s a (h.node, h.request, response)
  | evicted {i : ℕ} {h : Handler ν β} {key : String} {value : β} {response : Response β}
      (ha : a = .resume i) (hi : s.handlers[i]? = some h)
      (hstage : h.stage = .evicting key value response) :
      Tells s a (h.node, h.request, response)

variable {M : Setup ν} {s s' : Cluster ν β} {a : Action ν β}

omit [DecidableEq ν] in
theorem Installs.mem {h : Handler ν β} {entry : CacheEntry β} {response : Response β}
    (hinstalls : Installs s a h entry response) : h ∈ s.handlers := by
  cases hinstalls with
  | found hi => exact List.mem_of_getElem? hi
  | fetched hi => exact List.mem_of_getElem? hi
  | written hi => exact List.mem_of_getElem? hi

/-! ### Caches -/

section Copies

variable {m p : ν} {key : String} {cache : LruCache β}

/-- A cache that was replaced by a weaker one. -/
theorem valid_of_setCache {t : Cluster ν β} (hsame : ∀ q, (t.nodes q).cache = (s.nodes q).cache)
    (hweak : LruCache.Weakens key (s.nodes p).cache cache) {e' : CacheEntry β}
    (he' : Valid (t.setCache p cache) m key e') : ∃ e, Valid s m key e ∧ e.value = e'.value := by
  have hweak' : LruCache.Weakens key (s.nodes m).cache ((t.setCache p cache).nodes m).cache := by
    rw [cache_setCache]
    split
    · next heq => exact heq ▸ hweak
    · rw [hsame]
      exact .refl _ _
  obtain ⟨e, he, hvalue, -⟩ := valid_of_weakens hweak' he'
  exact ⟨e, he, hvalue⟩

theorem weakens_internalRead (c : LruCache β) (key : String) (read : Option String) :
    LruCache.Weakens key c (internalRead c read).1 := by
  cases read with
  | none => exact .refl _ _
  | some key' =>
      rcases internalRead_cases c key' with ⟨-, heq⟩ | ⟨o, e, -, -, -, -, heq⟩ |
        ⟨o, e, hentry, hcopy, hE, heq⟩ | ⟨e, -, -, heq⟩
      · rw [heq]
        exact .refl _ _
      · rw [heq]
        exact LruCache.weakens_touch
      · rw [heq]
        refine LruCache.weakens_setState_S (c := c.touch key') fun hkey => ?_
        have hsame : key = key' := c.owner key key' o hkey hentry
        exact ⟨e, hsame ▸ hcopy, by rw [hE]; simp⟩
      · rw [heq]
        exact LruCache.weakens_touch

/-- An installed entry. -/
theorem valid_of_install {t : Cluster ν β} {i : ℕ} {h : Handler ν β} {entry : CacheEntry β}
    {response : Response β} (hsame : ∀ q, (t.nodes q).cache = (s.nodes q).cache)
    (hinstalls : Installs s a h entry response) {e' : CacheEntry β}
    (he' : Valid (t.install i h entry response) m key e') :
    (∃ e, Valid s m key e ∧ e.value = e'.value) ∨ Brings M s a m key e'.value := by
  have hcache : ((t.install i h entry response).nodes m).cache =
      if m = h.node then ((s.nodes h.node).cache.put h.request.key entry).1
      else (s.nodes m).cache := by
    rw [(install_cases t i h entry response).1, cache_setCache, hsame, hsame]
  by_cases hm : m = h.node
  · subst hm
    rw [if_pos rfl] at hcache
    by_cases hkey : key = h.request.key
    · subst hkey
      refine .inr (.installed hinstalls rfl rfl ?_)
      have hcopy := he'.1
      rw [hcache] at hcopy
      rw [LruCache.copy_put_self entry hcopy]
    · have hweak := LruCache.weakens_put (c := (s.nodes h.node).cache) hkey entry
      rw [← hcache] at hweak
      obtain ⟨e, he, hvalue, -⟩ := valid_of_weakens hweak he'
      exact .inl ⟨e, he, hvalue⟩
  · rw [if_neg hm] at hcache
    exact .inl ⟨e', ⟨hcache ▸ he'.1, he'.2⟩, rfl⟩

/-- **Nothing else comes into a cache.** -/
theorem valid_of_moves (hmove : Moves M s a s') {e' : CacheEntry β} (he' : Valid s' m key e') :
    (∃ e, Valid s m key e ∧ e.value = e'.value) ∨ Brings M s a m key e'.value := by
  have hold : Valid s m key e' →
      (∃ e, Valid s m key e ∧ e.value = e'.value) ∨ Brings M s a m key e'.value :=
    fun he => .inl ⟨e', he, rfl⟩
  cases hmove with
  | refuseGet => exact hold he'
  | refusePut => exact hold he'
  | @hit n key' o entry hget =>
      obtain ⟨-, -, -, -, htouch⟩ := LruCache.get_eq_some hget
      refine .inl (valid_of_setCache (t := s) (fun _ => rfl) ?_ he')
      rw [htouch]
      exact LruCache.weakens_touch
  | miss => exact hold he'
  | put => exact hold he'
  | internalRead => exact .inl (valid_of_setCache (t := s) (fun _ => rfl)
      (weakens_internalRead _ _ _) he')
  | @internalReadDone i j h calls peer o key' entry hi hstage hj hkey hobject =>
      have hcopy : ((((s.writeMemory peer key' entry.value).setCache peer
          ((s.nodes peer).cache.setState o .S)).nodes m).cache).copy key = some e' := he'.1
      rw [cache_setCache] at hcopy
      split at hcopy
      · next hm =>
          subst hm
          by_cases hentry : (s.nodes m).cache.entries.get? key = some o
          · -- the object that was written back is the one of the key
            rw [LruCache.copy_setState, if_pos hentry, LruCache.copy_of_entry hentry,
              hobject] at hcopy
            cases hcopy
            exact .inr (.revived ⟨⟨i, j, h, calls, rfl, hi, hstage, hj, hkey⟩, hobject⟩ hentry rfl)
          · rw [LruCache.copy_setState_of_ne hentry] at hcopy
            exact .inl ⟨e', ⟨hcopy, he'.2⟩, rfl⟩
      · rw [cache_writeMemory] at hcopy
        exact .inl ⟨e', ⟨hcopy, he'.2⟩, rfl⟩
  | internalInvalidate => exact .inl (valid_of_setCache (t := s) (fun _ => rfl)
      (LruCache.weakens_invalidate _ _ _) he')
  | found hi hstage hanswers hfound =>
      exact valid_of_install (fun _ => rfl) (.found hi hstage hanswers hfound) he'
  | notFound => exact hold he'
  | unknown => exact hold he'
  | fetched hi hstage hmemory =>
      exact valid_of_install (fun _ => rfl) (.fetched hi hstage hmemory) he'
  | invalidated => exact hold he'
  | written hi hstage =>
      exact valid_of_install (fun _ => cache_writeMemory) (.written hi hstage) he'
  | @evicted i h key' value response hi hstage =>
      refine hold ⟨?_, he'.2⟩
      have hcopy : ((s.writeMemory h.node key' value).nodes m).cache.copy key = some e' := he'.1
      rwa [cache_writeMemory] at hcopy

end Copies

/-! ### Objects -/

theorem keeps_setCache {t : Cluster ν β} (hsame : ∀ q, (t.nodes q).cache = (s.nodes q).cache)
    {p : ν} {cache : LruCache β} (hkeeps : LruCache.Keeps (s.nodes p).cache cache) (m : ν) :
    LruCache.Keeps (s.nodes m).cache ((t.setCache p cache).nodes m).cache := by
  rw [cache_setCache]
  split
  · next heq => exact heq ▸ hkeeps
  · rw [hsame]
    exact .refl _

theorem keeps_internalRead (c : LruCache β) (read : Option String) :
    LruCache.Keeps c (internalRead c read).1 := by
  cases read with
  | none => exact .refl _
  | some key =>
      rcases internalRead_cases c key with ⟨-, heq⟩ | ⟨o, e, -, -, -, -, heq⟩ |
        ⟨o, e, -, -, -, heq⟩ | ⟨e, -, -, heq⟩
      · rw [heq]
        exact .refl _
      · rw [heq]
        exact LruCache.keeps_touch
      · rw [heq]
        exact ⟨(LruCache.keeps_setState (c.touch key) o .S).value,
          (LruCache.keeps_setState (c.touch key) o .S).entries⟩
      · rw [heq]
        exact LruCache.keeps_touch

theorem keeps_install {t : Cluster ν β} {i : ℕ} {h : Handler ν β} {entry : CacheEntry β}
    {response : Response β} (hsame : ∀ q, (t.nodes q).cache = (s.nodes q).cache) (m : ν) :
    LruCache.Keeps (s.nodes m).cache ((t.install i h entry response).nodes m).cache := by
  rw [(install_cases t i h entry response).1]
  refine keeps_setCache hsame ?_ m
  rw [hsame]
  exact LruCache.keeps_put _ _ _

/-- **Objects keep their values, and no key gets an old object.** -/
theorem keeps_of_moves (hmove : Moves M s a s') (m : ν) :
    LruCache.Keeps (s.nodes m).cache (s'.nodes m).cache := by
  cases hmove with
  | refuseGet => exact .refl _
  | refusePut => exact .refl _
  | hit hget =>
      obtain ⟨-, -, -, -, htouch⟩ := LruCache.get_eq_some hget
      refine keeps_setCache (t := s) (fun _ => rfl) ?_ m
      rw [htouch]
      exact LruCache.keeps_touch
  | miss => exact .refl _
  | put => exact .refl _
  | internalRead => exact keeps_setCache (t := s) (fun _ => rfl) (keeps_internalRead _ _) m
  | internalReadDone =>
      exact keeps_setCache (fun _ => cache_writeMemory) (LruCache.keeps_setState _ _ _) m
  | internalInvalidate =>
      exact keeps_setCache (t := s) (fun _ => rfl) (LruCache.keeps_invalidate _ _) m
  | found => exact keeps_install (fun _ => rfl) m
  | notFound => exact .refl _
  | unknown => exact .refl _
  | fetched => exact keeps_install (fun _ => rfl) m
  | invalidated => exact .refl _
  | written => exact keeps_install (fun _ => cache_writeMemory) m
  | evicted =>
      show LruCache.Keeps _ ((s.writeMemory _ _ _).nodes m).cache
      rw [cache_writeMemory]
      exact .refl _

/-! ### Memories -/

theorem memory_install {t : Cluster ν β} {i : ℕ} {h : Handler ν β} {entry : CacheEntry β}
    {response : Response β} (m : ν) :
    ((t.install i h entry response).nodes m).memoryDb = (t.nodes m).memoryDb := by
  rw [(install_cases t i h entry response).1, memoryDb_setCache]

/-- A write to the memory of one node. -/
theorem memory_of_write {t : Cluster ν β} {p m : ν} {key key' : String} {value : β}
    (ht : (t.nodes m).memoryDb = ((s.writeMemory p key' value).nodes m).memoryDb) :
    (t.nodes m).memoryDb.get? key = (s.nodes m).memoryDb.get? key ∨
      m = p ∧ key = key' ∧ (t.nodes m).memoryDb.get? key = some value := by
  rw [ht, get?_writeMemory]
  split
  · next heq => exact .inr ⟨heq.1, heq.2, rfl⟩
  · exact .inl rfl

/-- **Nothing else comes into a memory.** -/
theorem memory_of_moves (hmove : Moves M s a s') (m : ν) (key : String) :
    (s'.nodes m).memoryDb.get? key = (s.nodes m).memoryDb.get? key ∨
      ∃ value, Writes M s a m key value ∧ (s'.nodes m).memoryDb.get? key = some value := by
  cases hmove with
  | refuseGet => exact .inl rfl
  | refusePut => exact .inl rfl
  | hit => exact .inl (get?_setCache (s := s) rfl)
  | miss => exact .inl rfl
  | put => exact .inl rfl
  | internalRead => exact .inl (get?_setCache (s := s) rfl)
  | @internalReadDone i j h calls peer o key' entry hi hstage hj hkey hobject =>
      rcases @memory_of_write _ _ _ s ((s.writeMemory peer key' entry.value).setCache peer
        ((s.nodes peer).cache.setState o .S)) _ m key _ _ memoryDb_setCache with
        hsame | ⟨rfl, rfl, hvalue⟩
      · exact .inl hsame
      · exact .inr ⟨_, .readBack ⟨⟨i, j, h, calls, rfl, hi, hstage, hj, hkey⟩, hobject⟩ rfl, hvalue⟩
  | internalInvalidate => exact .inl (get?_setCache (s := s) rfl)
  | found => exact .inl (by rw [memory_install])
  | notFound => exact .inl rfl
  | unknown => exact .inl rfl
  | fetched => exact .inl (by rw [memory_install])
  | invalidated => exact .inl rfl
  | @written i h value hi hstage =>
      rcases @memory_of_write _ _ _ s ((s.writeMemory h.node h.request.key value).install i h
        ⟨value, .M⟩ (.ok h.request.key)) _ m key _ _ (memory_install m) with hsame | ⟨hm, hk, hvalue⟩
      · exact .inl hsame
      · exact .inr ⟨value, .put rfl hi hstage hm.symm hk.symm, hvalue⟩
  | @evicted i h key' value response hi hstage =>
      rcases @memory_of_write _ _ _ s ((s.writeMemory h.node key' value).finish i h response) _ m
        key _ _ rfl with hsame | ⟨hm, rfl, hvalue⟩
      · exact .inl hsame
      · exact .inr ⟨value, .evicted rfl hi hstage hm.symm, hvalue⟩

/-! ### Handlers and answers -/

omit [DecidableEq ν] in
theorem follows_setStage {i : ℕ} {h : Handler ν β} {stage : Stage ν β}
    (hi : s.handlers[i]? = some h) (hnext : Follows M s a { h with stage := stage })
    {t : Cluster ν β} (hsame : t.handlers = s.handlers) :
    ∀ h' ∈ (t.setStage i stage).handlers, Follows M s a h' := by
  intro h' hmem
  rcases mem_setStage hmem with hmem | ⟨h'', hi', rfl⟩
  · exact .same (hsame ▸ hmem)
  · rw [hsame, hi] at hi'
    cases hi'
    exact hnext

omit [DecidableEq ν] in
theorem follows_begin {h : Handler ν β} (hnext : Follows M s a h) :
    ∀ h' ∈ (s.begin h).handlers, Follows M s a h' := by
  intro h' hmem
  rcases List.mem_append.1 hmem with hmem | hmem
  · exact .same hmem
  · rw [List.mem_singleton.1 hmem]
    exact hnext

/-- A handler that installs its entry goes on with the write-back of what it evicts, or it ends and
gives its answer. -/
theorem install_ends {t : Cluster ν β} {i : ℕ} {h : Handler ν β} {entry : CacheEntry β}
    {response : Response β} (hsame : ∀ q, (t.nodes q).cache = (s.nodes q).cache)
    (hhandlers : t.handlers = s.handlers) (hanswers : t.answers = s.answers)
    (hi : s.handlers[i]? = some h) (hinstalls : Installs s a h entry response) :
    (∀ h' ∈ (t.install i h entry response).handlers, Follows M s a h') ∧
      ((t.install i h entry response).answers = s.answers ∨
        (t.install i h entry response).answers =
          s.answers ++ [(h.node, h.request, response)]) := by
  unfold Cluster.install
  simp only
  split
  · refine ⟨fun h' hmem => .same ?_, .inr ?_⟩
    · exact hhandlers ▸ List.mem_of_mem_eraseIdx hmem
    · exact congrArg (· ++ _) hanswers
  · next key evicted hput =>
      rw [hsame] at hput
      split
      · next hmodified =>
          exact ⟨follows_setStage hi (.evict hinstalls.mem hinstalls hput hmodified) hhandlers,
            .inl hanswers⟩
      · refine ⟨fun h' hmem => .same ?_, .inr ?_⟩
        · exact hhandlers ▸ List.mem_of_mem_eraseIdx hmem
        · exact congrArg (· ++ _) hanswers

omit [DecidableEq ν] in
/-- The other handlers are still there after one of them has ended. -/
theorem mem_eraseIdx {i : ℕ} {h h' : Handler ν β} (hi : s.handlers[i]? = some h')
    (hmem : h ∈ s.handlers) (hne : h ≠ h') : h ∈ s.handlers.eraseIdx i := by
  obtain ⟨j, hj⟩ := List.mem_iff_getElem?.1 hmem
  refine List.mem_eraseIdx_iff_getElem?.2 ⟨j, ?_, hj⟩
  rintro rfl
  exact hne (Option.some.inj (hj.symm.trans hi))

omit [DecidableEq ν] in
/-- The other handlers are still there after one of them has gone on. -/
theorem mem_setStage_of_mem {t : Cluster ν β} {i : ℕ} {h h' : Handler ν β} {stage : Stage ν β}
    (hi : t.handlers[i]? = some h') (hmem : h ∈ t.handlers) :
    h ∈ (t.setStage i stage).handlers ∨
      h = h' ∧ { h with stage := stage } ∈ (t.setStage i stage).handlers := by
  obtain ⟨j, hj⟩ := List.mem_iff_getElem?.1 hmem
  have hget := @List.getElem?_modify _ (fun handler => { handler with stage := stage }) i
    t.handlers j
  by_cases heq : i = j
  · subst heq
    obtain rfl : h = h' := Option.some.inj (hj.symm.trans hi)
    exact .inr ⟨rfl, List.mem_of_getElem? (hget.trans (by simp [hj]))⟩
  · exact .inl (List.mem_of_getElem? (hget.trans (by simp [hj, heq])))

/-- **The handlers after a step.** -/
theorem follows_of_moves (hmove : Moves M s a s') : ∀ h' ∈ s'.handlers, Follows M s a h' := by
  cases hmove with
  | refuseGet => exact fun _ hmem => .same hmem
  | refusePut => exact fun _ hmem => .same hmem
  | hit => exact fun _ hmem => .same hmem
  | miss hkey hget => exact follows_begin (.get rfl hget)
  | put hkey => exact follows_begin (.put rfl)
  | internalRead hi hstage hj => exact follows_setStage hi (.read hi hstage hj) rfl
  | internalReadDone hi hstage hj hkey hobject =>
      exact follows_setStage hi (.readBack hi hstage hj hobject) rfl
  | internalInvalidate hi hstage hj => exact follows_setStage hi (.invalidate rfl hi hstage hj) rfl
  | found hi hstage hanswers hfound =>
      exact (install_ends (fun _ => rfl) rfl rfl hi (.found hi hstage hanswers hfound)).1
  | notFound hi hstage => exact follows_setStage hi (.fetch hi hstage) rfl
  | unknown => exact fun _ hmem => .same (List.mem_of_mem_eraseIdx hmem)
  | fetched hi hstage hmemory =>
      exact (install_ends (fun _ => rfl) rfl rfl hi (.fetched hi hstage hmemory)).1
  | invalidated hi hstage hcalls => exact follows_setStage hi (.write hi hstage hcalls) rfl
  | written hi hstage =>
      exact (install_ends (fun _ => cache_writeMemory) rfl rfl hi (.written hi hstage)).1
  | evicted => exact fun _ hmem => .same (List.mem_of_mem_eraseIdx hmem)

omit [DecidableEq ν] in
/-- A running handler, when one of the handlers goes on. -/
theorem goes_setStage {t : Cluster ν β} {i : ℕ} {h h' : Handler ν β} {stage : Stage ν β}
    (hsame : t.handlers = s.handlers) (hi : s.handlers[i]? = some h') (hmem : h ∈ s.handlers)
    (hnext : h = h' → { h with stage := stage } ∈ (t.setStage i stage).handlers →
      Goes s a (t.setStage i stage) h) : Goes s a (t.setStage i stage) h := by
  rw [← hsame] at hi hmem
  rcases @mem_setStage_of_mem _ _ t i h h' stage hi hmem with hmem' | ⟨heq, hmem'⟩
  · exact .stays hmem'
  · exact hnext heq hmem'

omit [DecidableEq ν] in
/-- A running handler, when one of the handlers ends. -/
theorem goes_eraseIdx {i : ℕ} {h h' : Handler ν β} (hsame : s'.handlers = s.handlers.eraseIdx i)
    (hi : s.handlers[i]? = some h') (hmem : h ∈ s.handlers) (hend : h = h' → Goes s a s' h) :
    Goes s a s' h := by
  by_cases heq : h = h'
  · exact hend heq
  · exact .stays (hsame ▸ mem_eraseIdx hi hmem heq)

/-- A running handler, when one of the handlers installs its entry. -/
theorem goes_install {t : Cluster ν β} {i : ℕ} {h h' : Handler ν β} {entry : CacheEntry β}
    {response : Response β} (hhandlers : t.handlers = s.handlers)
    (hsame : ∀ q, (t.nodes q).cache = (s.nodes q).cache)
    (hi : s.handlers[i]? = some h') (hinstalls : Installs s a h' entry response)
    (hmemory : ∀ value, h'.stage = .writing value →
      (t.nodes h'.node).memoryDb.get? h'.request.key = some value) (hmem : h ∈ s.handlers) :
    Goes s a (t.install i h' entry response) h := by
  by_cases heq : h = h'
  · subst heq
    refine .installs hinstalls ?_ fun value hstage => ?_
    · rw [(install_cases t i h entry response).1, cache_setCache, if_pos rfl, hsame]
    · rw [memory_install]
      exact hmemory value hstage
  · refine .stays ?_
    rw [← hhandlers] at hi hmem
    unfold Cluster.install
    simp only
    split
    · exact mem_eraseIdx (s := t) hi hmem heq
    · split
      · exact (mem_setStage_of_mem (t := t.setCache h'.node _) hi hmem).resolve_right
          fun hsame => heq hsame.1
      · exact mem_eraseIdx (s := t) hi hmem heq

/-- **What becomes of a running handler.** -/
theorem goes_of_moves (hmove : Moves M s a s') {h : Handler ν β} (hmem : h ∈ s.handlers) :
    Goes s a s' h := by
  cases hmove with
  | refuseGet => exact .stays hmem
  | refusePut => exact .stays hmem
  | hit => exact .stays hmem
  | miss => exact .stays (List.mem_append_left _ hmem)
  | put => exact .stays (List.mem_append_left _ hmem)
  | internalRead hi hstage =>
      refine goes_setStage rfl hi hmem fun heq hnext => ?_
      subst heq
      exact .read hstage hnext
  | internalReadDone hi hstage =>
      refine goes_setStage rfl hi hmem fun heq hnext => ?_
      subst heq
      exact .read hstage hnext
  | internalInvalidate hi hstage hj =>
      refine goes_setStage rfl hi hmem fun heq hnext => ?_
      subst heq
      refine .invalidate hstage hj ?_ hnext
      show ((s.setCache _ _).nodes _).cache = _
      rw [cache_setCache, if_pos rfl]
  | found hi hstage hanswers hfound =>
      refine goes_install rfl (fun _ => rfl) hi (.found hi hstage hanswers hfound) ?_ hmem
      exact fun value hwriting => by rw [hstage] at hwriting; cases hwriting
  | notFound hi hstage =>
      refine goes_setStage rfl hi hmem fun heq hnext => ?_
      subst heq
      exact .fetch hstage hnext
  | unknown hi hstage =>
      refine goes_eraseIdx rfl hi hmem fun heq => ?_
      subst heq
      exact .unknown hstage
  | fetched hi hstage hmemory =>
      refine goes_install rfl (fun _ => rfl) hi (.fetched hi hstage hmemory) ?_ hmem
      exact fun value hwriting => by rw [hstage] at hwriting; cases hwriting
  | invalidated hi hstage hcalls =>
      refine goes_setStage rfl hi hmem fun heq hnext => ?_
      subst heq
      exact .write hstage hcalls hnext
  | @written i h' value hi hstage =>
      refine goes_install rfl (fun _ => cache_writeMemory) hi (.written hi hstage) ?_ hmem
      intro value' hwriting
      obtain rfl : value = value' := by
        rw [hstage] at hwriting
        exact Stage.writing.inj hwriting
      rw [get?_writeMemory, if_pos ⟨rfl, rfl⟩]
  | evicted hi hstage =>
      refine goes_eraseIdx rfl hi hmem fun heq => ?_
      subst heq
      exact .ends hstage

/-- **The answers after a step.** -/
theorem tells_of_moves (hmove : Moves M s a s') :
    s'.answers = s.answers ∨ ∃ answer, Tells s a answer ∧ s'.answers = s.answers ++ [answer] := by
  have hinstall : ∀ {t : Cluster ν β} {i : ℕ} {h : Handler ν β} {entry : CacheEntry β}
      {response : Response β}, (∀ q, (t.nodes q).cache = (s.nodes q).cache) →
      t.handlers = s.handlers → t.answers = s.answers → s.handlers[i]? = some h →
      Installs s a h entry response → (t.install i h entry response).answers = s.answers ∨
        ∃ answer, Tells s a answer ∧
          (t.install i h entry response).answers = s.answers ++ [answer] := by
    intro t i h entry response hsame hhandlers hanswers hi hinstalls
    rcases (install_ends (M := M) hsame hhandlers hanswers hi hinstalls).2 with heq | heq
    · exact .inl heq
    · exact .inr ⟨_, .installed hinstalls.mem hinstalls, heq⟩
  cases hmove with
  | refuseGet => exact .inr ⟨_, .refused rfl, rfl⟩
  | refusePut => exact .inr ⟨_, .refused rfl, rfl⟩
  | hit hget =>
      obtain ⟨-, -, hcopy, hvalid, -⟩ := LruCache.get_eq_some hget
      exact .inr ⟨_, .hit rfl ⟨hcopy, hvalid⟩, rfl⟩
  | miss => exact .inl rfl
  | put => exact .inl rfl
  | internalRead => exact .inl rfl
  | internalReadDone => exact .inl rfl
  | internalInvalidate => exact .inl rfl
  | found hi hstage hanswers hfound =>
      exact hinstall (fun _ => rfl) rfl rfl hi (.found hi hstage hanswers hfound)
  | notFound => exact .inl rfl
  | unknown hi hstage hmemory => exact .inr ⟨_, .unknown rfl hi hstage hmemory, rfl⟩
  | fetched hi hstage hmemory =>
      exact hinstall (fun _ => rfl) rfl rfl hi (.fetched hi hstage hmemory)
  | invalidated => exact .inl rfl
  | written hi hstage => exact hinstall (fun _ => cache_writeMemory) rfl rfl hi (.written hi hstage)
  | evicted hi hstage => exact .inr ⟨_, .evicted rfl hi hstage, rfl⟩

end CacheNode
