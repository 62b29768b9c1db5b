/-
**Requests that do not overlap: what the caches hold.**

When no request begins before the last one is answered, every valid entry of a key holds the value
that an answer has shown last, and the memory of a node holds what was put there last.  A write-back
then writes nothing new: a put has written its value to the memory of its node before the modified
entry exists.

Main definitions:

* `CacheNode.lastShown`, `CacheNode.lastPut`, `CacheNode.lastPutAt` — what the answers tell;
* `CacheNode.Sequential` — requests that do not overlap;
* `CacheNode.Held` — a key that is valid at some node;
* `CacheNode.Recorded` — **the caches and memories agree with the answers**.

Main results:

* `CacheNode.Recorded.keep`, `CacheNode.Recorded.install` — what the steps have in common;
* `CacheNode.Recorded.step` — every step keeps the agreement;
* `CacheNode.recorded_run` — the agreement in every run of this kind.
-/

import DistSync.CacheCoherence

set_option relaxedAutoImplicit false
set_option autoImplicit false

namespace CacheNode

open Runs

variable {ν β : Type*}

/-! ### Answers -/

/-- An answer to a client, with the node that gave it and the request. -/
abbrev Answer (ν β : Type*) := ν × Request β × Response β

/-- The value of a key that an answer shows: the one that was put, or the one that was read. -/
def shown (key : String) : Answer ν β → Option β
  | (_, .put key' value, .ok _) => if key' = key then some value else none
  | (_, .get key', .value _ value _) => if key' = key then some value else none
  | _ => none

/-- The node and the value of a put of a key. -/
def written (key : String) : Answer ν β → Option (ν × β)
  | (n, .put key' value, .ok _) => if key' = key then some (n, value) else none
  | _ => none

/-- The value of a put of a key at a node. -/
def writtenAt [DecidableEq ν] (n : ν) (key : String) (answer : Answer ν β) : Option β :=
  (written key answer).bind fun put => if put.1 = n then some put.2 else none

/-- The last value that `f` finds in a list. -/
def latest {α γ : Type*} (f : α → Option γ) (l : List α) : Option γ := l.reverse.findSome? f

/-- The value of a key in the last answer that shows one. -/
def lastShown (key : String) (answers : List (Answer ν β)) : Option β := latest (shown key) answers

/-- The node and the value of the last put of a key. -/
def lastPut (key : String) (answers : List (Answer ν β)) : Option (ν × β) :=
  latest (written key) answers

/-- The value of the last put of a key at a node. -/
def lastPutAt [DecidableEq ν] (n : ν) (key : String) (answers : List (Answer ν β)) : Option β :=
  latest (writtenAt n key) answers

theorem latest_append {α γ : Type*} (f : α → Option γ) (l : List α) (a : α) :
    latest f (l ++ [a]) = (f a).or (latest f l) := by
  rw [latest, List.reverse_append, List.reverse_singleton, List.singleton_append,
    List.findSome?_cons]
  cases f a <;> rfl

theorem lastShown_append {key : String} {answers : List (Answer ν β)} {answer : Answer ν β} :
    lastShown key (answers ++ [answer]) = (shown key answer).or (lastShown key answers) :=
  latest_append _ _ _

theorem lastPut_append {key : String} {answers : List (Answer ν β)} {answer : Answer ν β} :
    lastPut key (answers ++ [answer]) = (written key answer).or (lastPut key answers) :=
  latest_append _ _ _

theorem lastPutAt_append [DecidableEq ν] {n : ν} {key : String} {answers : List (Answer ν β)}
    {answer : Answer ν β} :
    lastPutAt n key (answers ++ [answer]) = (writtenAt n key answer).or (lastPutAt n key answers) :=
  latest_append _ _ _

@[simp] theorem written_get {key key' : String} {n : ν} {response : Response β} :
    written key (n, .get key', response) = none := rfl

@[simp] theorem writtenAt_get [DecidableEq ν] {m n : ν} {key key' : String}
    {response : Response β} : writtenAt m key (n, .get key', response) = none := rfl

theorem writtenAt_put [DecidableEq ν] {m n : ν} {key key' key'' : String} {value : β} :
    writtenAt m key (n, .put key' value, .ok key'') =
      if m = n ∧ key = key' then some value else none := by
  by_cases hkey : key' = key
  · simp [writtenAt, written, hkey, eq_comm]
  · simp [writtenAt, written, hkey, Ne.symm hkey]

/-- An answer shows a value of its own key only. -/
theorem shown_of_ne {key : String} {n : ν} {request : Request β} {response : Response β}
    (h : key ≠ request.key) : shown key (n, request, response) = none := by
  cases request with
  | get key' =>
      cases response with
      | value _ value state => exact if_neg fun heq => h heq.symm
      | ok _ => rfl
      | error _ _ => rfl
  | put key' value =>
      cases response with
      | value _ _ _ => rfl
      | ok _ => exact if_neg fun heq => h heq.symm
      | error _ _ => rfl

/-- The last put of a key is also the last one at its node. -/
theorem lastPutAt_of_lastPut [DecidableEq ν] {key : String} {n : ν} {value : β}
    {answers : List (Answer ν β)} (h : lastPut key answers = some (n, value)) :
    lastPutAt n key answers = some value := by
  induction answers using List.reverseRecOn with
  | nil => cases h
  | append_singleton answers answer ih =>
      rw [lastPut_append, Option.or_eq_some_iff] at h
      rw [lastPutAt_append]
      rcases h with h | ⟨hnone, h⟩
      · rw [writtenAt, h, Option.bind_some, if_pos rfl, Option.some_or]
      · rw [writtenAt, hnone, Option.bind_none, Option.none_or]
        exact ih h

/-! ### Requests one after the other -/

/-- A request begins when all others have been answered.  The key of a get is the same after its way
through a URL. -/
def Sequential (M : Setup ν) (s : Cluster ν β) : Action ν β → Prop
  | .get _ key => s.handlers = [] ∧ M.queryKey key = some key
  | .put _ _ _ => s.handlers = []
  | _ => True

theorem Sequential.undisturbed [DecidableEq ν] {M : Setup ν} {s : Cluster ν β} {a : Action ν β}
    (h : Sequential M s a) : Undisturbed M s a := by
  cases a with
  | get n key =>
      refine fun _ => ⟨h.2, fun h' hmem => ?_⟩
      rw [h.1] at hmem
      cases hmem
  | put n key value =>
      intro h' hmem
      rw [show s.handlers = [] from h] at hmem
      cases hmem
  | internalRead i j => trivial
  | internalReadDone i j => trivial
  | internalInvalidate i j => trivial
  | resume i => trivial

/-- A key is valid at some node. -/
def Held (s : Cluster ν β) (key : String) : Prop := ∃ n e, Valid s n key e

/-- The answer of a handler that waits for a write-back. -/
def Handler.pending (h : Handler ν β) : List (Answer ν β) :=
  match h.stage with
  | .evicting _ _ response => [(h.node, h.request, response)]
  | _ => []

/-- The answers that are given or pending. -/
def told (s : Cluster ν β) : List (Answer ν β) := s.answers ++ s.handlers.flatMap Handler.pending

/-- What a running handler knows about the cluster and the answers. -/
structure Informed (s : Cluster ν β) (h : Handler ν β) : Prop where
  absent : ∀ calls, h.stage = .reading calls → NoCopy s h.node h.request.key
  found : ∀ calls p v, h.stage = .reading calls → (p, .answered (some v)) ∈ calls →
    Held s h.request.key ∧ lastShown h.request.key (told s) = some v
  writingBack : ∀ p o, h.writingBack p o → ∃ e, (s.nodes p).cache.objects[o]? = some e ∧
    e.state ≠ .I ∧ Held s h.request.key ∧ lastShown h.request.key (told s) = some e.value ∧
    (s.nodes p).memoryDb.get? h.request.key = some e.value
  fetching : h.stage = .fetching → ¬ Held s h.request.key
  evicting : ∀ key v response, h.stage = .evicting key v response →
    (s.nodes h.node).memoryDb.get? key = some v

/-- **The caches and memories agree with the answers.** -/
structure Recorded [DecidableEq ν] (s : Cluster ν β) : Prop where
  one : s.handlers.length ≤ 1
  shown : ∀ n key e, Valid s n key e → lastShown key (told s) = some e.value
  memory : ∀ n key, (s.nodes n).memoryDb.get? key = lastPutAt n key (told s)
  modified : ∀ n key e, Valid s n key e → e.state = .M →
    (s.nodes n).memoryDb.get? key = some e.value
  informed : ∀ h ∈ s.handlers, Informed s h

/-! ### Frames -/

/-- Only a read knows something about its peers. -/
theorem informed_of_notReading {s : Cluster ν β} {h : Handler ν β}
    (hreading : ∀ calls, h.stage ≠ .reading calls)
    (hfetching : h.stage = .fetching → ¬ Held s h.request.key)
    (hevicting : ∀ key v response, h.stage = .evicting key v response →
      (s.nodes h.node).memoryDb.get? key = some v) : Informed s h := by
  refine ⟨fun calls hstage => ?_, fun calls p v hstage => ?_, ?_, hfetching, hevicting⟩
  · exact absurd hstage (hreading calls)
  · exact absurd hstage (hreading calls)
  · rintro p o ⟨calls, hstage, -⟩
    exact absurd hstage (hreading calls)

theorem informed_of_put {s : Cluster ν β} {h : Handler ν β}
    (hstage : (∃ v calls, h.stage = .invalidating v calls) ∨ ∃ v, h.stage = .writing v) :
    Informed s h := by
  rcases hstage with ⟨v, calls, hstage⟩ | ⟨v, hstage⟩ <;>
    exact informed_of_notReading (by simp [hstage]) (by simp [hstage]) (by simp [hstage])

theorem informed_of_fetching {s : Cluster ν β} {h : Handler ν β} (hstage : h.stage = .fetching)
    (hheld : ¬ Held s h.request.key) : Informed s h :=
  informed_of_notReading (by simp [hstage]) (fun _ => hheld) (by simp [hstage])

theorem informed_of_evicting {s : Cluster ν β} {h : Handler ν β} {key : String} {v : β}
    {response : Response β} (hstage : h.stage = .evicting key v response)
    (hmemory : (s.nodes h.node).memoryDb.get? key = some v) : Informed s h := by
  refine informed_of_notReading (by simp [hstage]) (by simp [hstage])
    fun key' v' response' hwaits => ?_
  rw [hstage] at hwaits
  cases hwaits
  exact hmemory

section Steps

variable [DecidableEq ν] {M : Setup ν} {s s' : Cluster ν β} {i j : ℕ} {h : Handler ν β}
  {n p : ν} {cache : LruCache β} {entry : CacheEntry β} {response : Response β}

@[simp] theorem memoryDb_setCache {m : ν} :
    ((s.setCache n cache).nodes m).memoryDb = (s.nodes m).memoryDb := by
  simp only [Cluster.setCache, Cluster.setNode]
  split
  · next heq => rw [heq]
  · rfl

theorem get?_setCache {m : ν} {key : String} (hnodes : s'.nodes = (s.setCache p cache).nodes) :
    (s'.nodes m).memoryDb.get? key = (s.nodes m).memoryDb.get? key := by
  rw [hnodes, memoryDb_setCache]

theorem get?_writeMemory {m : ν} {key key' : String} {value : β} :
    ((s.writeMemory n key value).nodes m).memoryDb.get? key' =
      if m = n ∧ key' = key then some value else (s.nodes m).memoryDb.get? key' := by
  simp only [Cluster.writeMemory, Cluster.setNode]
  by_cases hm : m = n
  · subst hm
    simp [Dict.get?_set]
  · simp [hm]

/-- Writing what is there already. -/
theorem get?_writeMemory_same {m : ν} {key key' : String} {value : β}
    (hsame : (s.nodes n).memoryDb.get? key = some value) :
    ((s.writeMemory n key value).nodes m).memoryDb.get? key' = (s.nodes m).memoryDb.get? key' := by
  rw [get?_writeMemory]
  split
  · next heq => rw [heq.1, heq.2, hsame]
  · rfl

theorem Recorded.only (hR : Recorded s) (hi : s.handlers[i]? = some h) :
    i = 0 ∧ s.handlers = [h] := by
  have hone := hR.one
  cases hhandlers : s.handlers with
  | nil =>
      rw [hhandlers] at hi
      cases hi
  | cons h' rest =>
      cases rest with
      | cons _ _ => simp [hhandlers] at hone
      | nil =>
          cases i with
          | zero =>
              rw [hhandlers] at hi
              cases hi
              exact ⟨rfl, rfl⟩
          | succ i =>
              rw [hhandlers] at hi
              cases hi

omit [DecidableEq ν] in
theorem told_of_idle (hidle : s.handlers = []) : told s = s.answers := by
  rw [told, hidle, List.flatMap_nil, List.append_nil]

omit [DecidableEq ν] in
theorem told_of_unfinished (hs : s.handlers = [h]) (hopen : h.unfinished = true) :
    told s = s.answers := by
  rw [told, hs, List.flatMap_singleton]
  unfold Handler.unfinished at hopen
  unfold Handler.pending
  split
  · next hstage =>
      rw [hstage] at hopen
      cases hopen
  · exact List.append_nil _

omit [DecidableEq ν] in
theorem handlers_setStage {stage : Stage ν β} (hs : s.handlers = [h]) :
    (s.setStage 0 stage).handlers = [{ h with stage := stage }] := by
  rw [Cluster.setStage, hs]
  rfl

omit [DecidableEq ν] in
/-- A handler goes on, and nothing is told. -/
theorem told_of_goesOn {h' : Handler ν β} (hs : s.handlers = [h]) (hs' : s'.handlers = [h'])
    (hanswers : s'.answers = s.answers) (hopen : h.unfinished = true)
    (hopen' : h'.unfinished = true) : told s' = told s := by
  rw [told_of_unfinished hs hopen, told_of_unfinished hs' hopen', hanswers]

omit [DecidableEq ν] in
theorem handlers_begin (hidle : s.handlers = []) : (s.begin h).handlers = [h] := by
  rw [Cluster.begin, hidle, List.nil_append]

omit [DecidableEq ν] in
theorem told_begin (hidle : s.handlers = []) (hopen : h.unfinished = true) :
    told (s.begin h) = told s := by
  rw [told_of_unfinished (handlers_begin hidle) hopen, told_of_idle hidle]
  rfl

omit [DecidableEq ν] in
theorem told_answer {request : Request β} (hidle : s.handlers = []) :
    told (s.answer n request response) = told s ++ [(n, request, response)] := by
  rw [told_of_idle hidle, told_of_idle (s := s.answer n request response) hidle]
  rfl

omit [DecidableEq ν] in
theorem handlers_finish (hs : s.handlers = [h]) : (s.finish 0 h response).handlers = [] := by
  rw [Cluster.finish, hs]
  rfl

omit [DecidableEq ν] in
theorem told_finish (hs : s.handlers = [h]) :
    told (s.finish 0 h response) = s.answers ++ [(h.node, h.request, response)] := by
  rw [told_of_idle (handlers_finish hs)]
  rfl

omit [DecidableEq ν] in
/-- The answer of a handler was told when its write-back began. -/
theorem told_evicted {key : String} {value : β} (hs : s.handlers = [h])
    (hstage : h.stage = .evicting key value response) : told s = s.answers ++
      [(h.node, h.request, response)] := by
  rw [told, hs, List.flatMap_singleton, Handler.pending, hstage]

/-- **An installed entry**: the answer is told, and the handler has gone or writes back a modified
entry. -/
theorem install_spec (hs : s.handlers = [h]) :
    told (s.install 0 h entry response) = s.answers ++ [(h.node, h.request, response)] ∧
    (s.install 0 h entry response).nodes =
      (s.setCache h.node ((s.nodes h.node).cache.put h.request.key entry).1).nodes ∧
    ((s.install 0 h entry response).handlers = [] ∧
        (s.install 0 h entry response).answers =
          s.answers ++ [(h.node, h.request, response)] ∨
      ∃ key evicted, ((s.nodes h.node).cache.put h.request.key entry).2 = some (key, evicted) ∧
        evicted.state = .M ∧ (s.install 0 h entry response).answers = s.answers ∧
        (s.install 0 h entry response).handlers =
          [{ h with stage := .evicting key evicted.value response }]) := by
  have hs' : (s.setCache h.node ((s.nodes h.node).cache.put h.request.key entry).1).handlers =
      [h] := hs
  unfold Cluster.install
  simp only
  split
  · exact ⟨told_finish hs', rfl, .inl ⟨handlers_finish hs', rfl⟩⟩
  · next key evicted hput =>
      split
      · next hM =>
          refine ⟨?_, rfl, .inr ⟨key, evicted, hput, hM, rfl, handlers_setStage hs'⟩⟩
          rw [told, handlers_setStage hs', List.flatMap_singleton]
          rfl
      · exact ⟨told_finish hs', rfl, .inl ⟨handlers_finish hs', rfl⟩⟩

/-! ### Steps -/

omit [DecidableEq ν] in
/-- Reads keep a key where it is. -/
theorem held_of_shares (hshares : ∀ q, LruCache.Shares (s.nodes q).cache (s'.nodes q).cache)
    {key : String} : Held s' key ↔ Held s key := by
  constructor
  · rintro ⟨q, e', he'⟩
    obtain ⟨e, he, -⟩ := valid_of_weakens ((hshares q).weakens key) he'
    exact ⟨q, e, he⟩
  · rintro ⟨q, e, he⟩
    obtain ⟨e', he'⟩ := (hshares q).valid he.1 he.2
    exact ⟨q, e', he'⟩

/-- A step that only weakens the caches, and tells nothing new. -/
theorem Recorded.keep (hR : Recorded s) (hone : s'.handlers.length ≤ 1)
    (hshown : ∀ key, lastShown key (told s') = lastShown key (told s))
    (hput : ∀ n key, lastPutAt n key (told s') = lastPutAt n key (told s))
    (hmemory : ∀ n key, (s'.nodes n).memoryDb.get? key = (s.nodes n).memoryDb.get? key)
    (hweak : ∀ n key, LruCache.Weakens key (s.nodes n).cache (s'.nodes n).cache)
    (hinformed : ∀ h ∈ s'.handlers, Informed s' h) : Recorded s' := by
  constructor
  · exact hone
  · intro n key e' he'
    obtain ⟨e, he, hvalue, -⟩ := valid_of_weakens (hweak n key) he'
    rw [hshown, ← hvalue]
    exact hR.shown n key e he
  · intro n key
    rw [hmemory, hput]
    exact hR.memory n key
  · intro n key e' he' hM
    obtain ⟨e, he, hvalue, hstate⟩ := valid_of_weakens (hweak n key) he'
    rw [hmemory, ← hvalue]
    refine hR.modified n key e he ?_
    rcases hstate with hstate | hstate
    · rw [← hstate, hM]
    · rw [hstate] at hM
      cases hM
  · exact hinformed

/-- A read of the handler gets further, and the cache of its peer only shares. -/
theorem Recorded.setCall {calls : List (ν × ReadCall β)} {call : ReadCall β} (hR : Recorded s)
    (hs : s.handlers = [h]) (hstage : h.stage = .reading calls)
    (hcache : ∀ q, (s'.nodes q).cache = if q = p then cache else (s.nodes q).cache)
    (hshares : LruCache.Shares (s.nodes p).cache cache)
    (hmemory : ∀ q key, (s'.nodes q).memoryDb.get? key = (s.nodes q).memoryDb.get? key)
    (hanswers : s'.answers = s.answers)
    (hhandlers : s'.handlers = [{ h with stage := .reading (calls.set j (p, call)) }])
    (hfound : ∀ v, call = .answered (some v) →
      Held s h.request.key ∧ lastShown h.request.key (told s) = some v)
    (hback : ∀ o, call = .writingBack o → ∃ e, (s.nodes p).cache.objects[o]? = some e ∧
      e.state ≠ .I ∧ Held s h.request.key ∧ lastShown h.request.key (told s) = some e.value ∧
      (s.nodes p).memoryDb.get? h.request.key = some e.value) : Recorded s' := by
  have hopen := unfinished_of_reading hstage
  have htold := told_of_goesOn hs hhandlers hanswers hopen rfl
  have hshares' := forall_cache LruCache.Shares.refl hcache hshares
  have hold := hR.informed h (by rw [hs]; exact List.mem_singleton_self h)
  refine hR.keep (by rw [hhandlers]; exact Nat.le_refl 1) (fun key => by rw [htold])
    (fun n key => by rw [htold]) hmemory (fun q key => (hshares' q).weakens key) fun h' hmem => ?_
  rw [hhandlers, List.mem_singleton] at hmem
  subst hmem
  constructor
  · intro _ _
    exact (hold.absent calls hstage).weaken ((hshares' _).weakens _)
  · intro calls' q v hstage' hmem
    cases hstage'
    rw [held_of_shares hshares', htold]
    rcases List.mem_or_eq_of_mem_set hmem with hmem | heq
    · exact hold.found calls q v hstage hmem
    · cases heq
      exact hfound v rfl
  · rintro q o ⟨calls', hstage', hmem⟩
    cases hstage'
    rw [held_of_shares hshares', htold, hmemory]
    have hobject : ∃ e, (s.nodes q).cache.objects[o]? = some e ∧ e.state ≠ .I ∧
        Held s h.request.key ∧ lastShown h.request.key (told s) = some e.value ∧
        (s.nodes q).memoryDb.get? h.request.key = some e.value := by
      rcases List.mem_or_eq_of_mem_set hmem with hmem | heq
      · exact hold.writingBack q o ⟨calls, hstage, hmem⟩
      · cases heq
        exact hback o rfl
    obtain ⟨e, he, hvalid, hheld, hshown, hkept⟩ := hobject
    obtain ⟨e', he', hvalue, hvalid'⟩ := (hshares' q).objects o e he hvalid
    rw [← hvalue] at hshown hkept
    exact ⟨e', he', hvalid', hheld, hshown, hkept⟩
  · intro hfetching
    cases hfetching
  · intro key v response hevicting
    cases hevicting

/-- What a peer does for a read, and what it finds. -/
theorem internalRead_spec (c : LruCache β) (key : String) :
    LruCache.Shares c (internalRead c (some key)).1 ∧
      (∀ v, (internalRead c (some key)).2 = .answered (some v) →
        ∃ e, c.copy key = some e ∧ e.state ≠ .I ∧ e.value = v) ∧
      ∀ o, (internalRead c (some key)).2 = .writingBack o →
        ∃ e, c.copy key = some e ∧ c.objects[o]? = some e ∧ e.state = .M := by
  rcases internalRead_cases c key with ⟨-, heq⟩ | ⟨o, e, -, hobject, hcopy, hstate, heq⟩ |
    ⟨o, e, hentry, hcopy, hstate, heq⟩ | ⟨e, hcopy, hstate, heq⟩
  · rw [heq]
    exact ⟨.refl c, fun v hv => (nomatch hv), fun o ho => nomatch ho⟩
  · rw [heq]
    refine ⟨LruCache.shares_touch, fun v hv => (nomatch hv), fun o' ho => ?_⟩
    cases ho
    exact ⟨e, hcopy, hobject, hstate⟩
  · rw [heq]
    have hobject : (c.touch key).objects[o]? = some e := by
      rw [← hcopy, LruCache.copy_of_entry hentry]
      rfl
    have hshares := LruCache.shares_setState_S hobject (by rw [hstate]; simp)
    refine ⟨⟨hshares.weakens, hshares.entries, hshares.objects⟩, fun v hv => ?_,
      fun o ho => nomatch ho⟩
    cases hv
    exact ⟨e, hcopy, by rw [hstate]; simp, rfl⟩
  · rw [heq]
    refine ⟨LruCache.shares_touch, fun v hv => ?_, fun o ho => nomatch ho⟩
    cases hv
    exact ⟨e, hcopy, by rw [hstate]; simp, rfl⟩

/-- The handler installs its entry, after a write to memory or without one. -/
theorem Recorded.install {s₀ : Cluster ν β} (hR : Recorded s)
    (hcache : ∀ q, (s₀.nodes q).cache = (s.nodes q).cache) (hhandlers : s₀.handlers = [h])
    (hanswers : s₀.answers = told s)
    (hothers : ∀ q e, q ≠ h.node → Valid s q h.request.key e → e.value = entry.value)
    (hshown : CacheNode.shown h.request.key (h.node, h.request, response) = some entry.value)
    (hmemory : ∀ q key, (s₀.nodes q).memoryDb.get? key =
      lastPutAt q key (told s ++ [(h.node, h.request, response)]))
    (hkeep : ∀ q key, key ≠ h.request.key ∨ q ≠ h.node →
      (s₀.nodes q).memoryDb.get? key = (s.nodes q).memoryDb.get? key)
    (hM : entry.state = .M → (s₀.nodes h.node).memoryDb.get? h.request.key = some entry.value) :
    Recorded (s₀.install 0 h entry response) := by
  obtain ⟨htold, hnodes, hafter⟩ := @install_spec ν β _ s₀ h entry response hhandlers
  generalize s₀.install 0 h entry response = s' at htold hnodes hafter ⊢
  rw [hanswers] at htold
  have hcache' : ∀ q, (s'.nodes q).cache = if q = h.node then
      ((s.nodes h.node).cache.put h.request.key entry).1 else (s.nodes q).cache := by
    intro q
    rw [hnodes, cache_setCache, hcache, hcache]
  have hmemory' : ∀ q, (s'.nodes q).memoryDb = (s₀.nodes q).memoryDb := by
    intro q
    rw [hnodes, memoryDb_setCache]
  -- a valid entry is the new one, or it was there before at another place
  have hvalid : ∀ q key e, Valid s' q key e → (q = h.node ∧ key = h.request.key ∧ e = entry) ∨
      Valid s q key e ∧ (key ≠ h.request.key ∨ q ≠ h.node) := by
    intro q key e he
    have hcopy := he.1
    rw [hcache'] at hcopy
    by_cases hq : q = h.node
    · subst hq
      rw [if_pos rfl] at hcopy
      by_cases hkey : key = h.request.key
      · subst hkey
        exact .inl ⟨rfl, rfl, LruCache.copy_put_self entry hcopy⟩
      · rcases LruCache.copy_put_of_ne hkey entry with hnone | ⟨-, hsame⟩
        · rw [hnone] at hcopy
          cases hcopy
        · rw [hsame] at hcopy
          exact .inr ⟨⟨hcopy, he.2⟩, .inl hkey⟩
    · rw [if_neg hq] at hcopy
      exact .inr ⟨⟨hcopy, he.2⟩, .inr hq⟩
  constructor
  · rcases hafter with ⟨hdone, -⟩ | ⟨key, evicted, -, -, -, hwaits⟩
    · rw [hdone]
      exact Nat.zero_le 1
    · rw [hwaits]
      exact Nat.le_refl 1
  · intro q key e he
    rw [htold, lastShown_append]
    rcases hvalid q key e he with ⟨rfl, rfl, rfl⟩ | ⟨hold, hplace⟩
    · rw [hshown, Option.some_or]
    · by_cases hkey : key = h.request.key
      · subst hkey
        rw [hshown, Option.some_or, hothers q e (hplace.resolve_left fun hne => hne rfl) hold]
      · rw [shown_of_ne hkey, Option.none_or]
        exact hR.shown q key e hold
  · intro q key
    rw [hmemory', htold]
    exact hmemory q key
  · intro q key e he hstate
    rw [hmemory']
    rcases hvalid q key e he with ⟨rfl, rfl, rfl⟩ | ⟨hold, hplace⟩
    · exact hM hstate
    · rw [hkeep q key hplace]
      exact hR.modified q key e hold hstate
  · intro h' hmem
    rcases hafter with ⟨hdone, -⟩ | ⟨key, evicted, hput, hstate, -, hwaits⟩
    · rw [hdone] at hmem
      cases hmem
    · rw [hwaits, List.mem_singleton] at hmem
      subst hmem
      refine informed_of_evicting rfl ?_
      rw [hmemory']
      rw [hcache] at hput
      -- a modified entry that is evicted holds what the memory has
      rcases LruCache.copy_of_evicted hput with ⟨rfl, rfl⟩ | ⟨hkey, hcopy⟩
      · exact hM hstate
      · rw [hkeep _ _ (.inl hkey)]
        exact hR.modified _ _ _ ⟨hcopy, by rw [hstate]; simp⟩ hstate

/-- A handler begins, and knows nothing. -/
theorem Recorded.begin (hR : Recorded s) (hidle : s.handlers = []) (hopen : h.unfinished = true)
    (hinformed : Informed (s.begin h) h) : Recorded (s.begin h) := by
  have hhandlers := @handlers_begin ν β s h hidle
  have htold := told_begin hidle hopen
  refine hR.keep (by rw [hhandlers]; exact Nat.le_refl 1) (fun key => by rw [htold])
    (fun n key => by rw [htold]) (fun _ _ => rfl) (fun _ _ => .refl _ _) fun h' hmem => ?_
  rw [hhandlers, List.mem_singleton] at hmem
  rw [hmem]
  exact hinformed

/-- A handler goes on to another place, and nothing is told. -/
theorem Recorded.setStage {stage : Stage ν β} (hR : Recorded s) (hs : s.handlers = [h])
    (hopen : h.unfinished = true)
    (hopen' : { h with stage := stage : Handler ν β }.unfinished = true)
    (hinformed : Informed (s.setStage 0 stage) { h with stage := stage }) :
    Recorded (s.setStage 0 stage) := by
  have htold := told_of_goesOn hs (@handlers_setStage ν β s h stage hs) rfl hopen hopen'
  refine hR.keep (by rw [handlers_setStage hs]; exact Nat.le_refl 1) (fun key => by rw [htold])
    (fun n key => by rw [htold]) (fun _ _ => rfl) (fun _ _ => .refl _ _) fun h' hmem => ?_
  rw [handlers_setStage hs, List.mem_singleton] at hmem
  rw [hmem]
  exact hinformed

/-- An answer that shows nothing new. -/
theorem Recorded.answer {request : Request β} (hR : Recorded s)
    (hhandlers : s'.handlers = [])
    (htold : told s' = told s ++ [(n, request, response)])
    (hshown : ∀ key value, CacheNode.shown key (n, request, response) = some value →
      lastShown key (told s) = some value)
    (hwritten : ∀ m key, writtenAt m key (n, request, response) = none)
    (hmemory : ∀ n key, (s'.nodes n).memoryDb.get? key = (s.nodes n).memoryDb.get? key)
    (hweak : ∀ n key, LruCache.Weakens key (s.nodes n).cache (s'.nodes n).cache) :
    Recorded s' := by
  refine hR.keep (by rw [hhandlers]; exact Nat.zero_le 1) (fun key => ?_) (fun m key => ?_) hmemory
    hweak fun h' hmem => ?_
  · rw [htold, lastShown_append]
    cases hvalue : CacheNode.shown key (n, request, response) with
    | none => exact Option.none_or
    | some value => rw [Option.some_or, hshown key value hvalue]
  · rw [htold, lastPutAt_append, hwritten, Option.none_or]
  · rw [hhandlers] at hmem
    cases hmem

/-- The answer to a get puts nothing. -/
theorem writtenAt_of_get {m : ν} {key : String} (hget : h.isPut = false) :
    writtenAt m key (h.node, h.request, response) = none := by
  obtain ⟨n, request, stage⟩ := h
  cases request with
  | get key' => rfl
  | put key' value => cases hget

omit [DecidableEq ν] in
theorem shown_of_get {value : β} {state : Mesi} (hget : h.isPut = false) :
    CacheNode.shown h.request.key (h.node, h.request, .value h.request.key value state) =
      some value := by
  obtain ⟨n, request, stage⟩ := h
  cases request with
  | get key' => exact if_pos rfl
  | put key' value => cases hget

omit [DecidableEq ν] in
theorem isGet_of_fetching (hfits : h.fits M) (hstage : h.stage = .fetching) : h.isPut = false := by
  obtain ⟨n, request, stage⟩ := h
  subst hstage
  cases request with
  | get key => rfl
  | put key value => exact hfits.elim

omit [DecidableEq ν] in
theorem request_of_writing {value : β} (hfits : h.fits M) (hstage : h.stage = .writing value) :
    h.request = .put h.request.key value := by
  obtain ⟨n, request, stage⟩ := h
  subst hstage
  cases request with
  | get key => exact hfits.elim
  | put key value' => rw [show value = value' from hfits]; rfl

/-- A get installs what it has read. -/
theorem Recorded.installGet (hR : Recorded s) (hs : s.handlers = [h]) (hopen : h.unfinished = true)
    (hget : h.isPut = false) (hM : entry.state ≠ .M)
    (hothers : ∀ q e, q ≠ h.node → Valid s q h.request.key e → e.value = entry.value) :
    Recorded (s.install 0 h entry (.value h.request.key entry.value entry.state)) := by
  refine hR.install (fun _ => rfl) hs (told_of_unfinished hs hopen).symm hothers
    (shown_of_get hget) (fun q key => ?_) (fun _ _ _ => rfl) fun hstate => absurd hstate hM
  rw [lastPutAt_append, writtenAt_of_get hget, Option.none_or]
  exact hR.memory q key

omit [DecidableEq ν] in
/-- A get that begins knows that its own node does not hold the key. -/
theorem informed_of_begin {key : String} {peers : List ν} (habsent : NoCopy s n key) :
    Informed s ⟨n, .get key, .reading (peers.map fun peer => (peer, .sent))⟩ := by
  refine ⟨fun _ _ => habsent, fun calls p v hstage hmem => ?_, ?_, fun hfetching => ?_,
    fun key v response hevicting => ?_⟩
  · cases eq_sent_of_mem hstage hmem
  · rintro p o ⟨calls, hstage, hmem⟩
    cases eq_sent_of_mem hstage hmem
  · cases hfetching
  · cases hevicting

/-- A peer serves a read. -/
theorem Recorded.internalRead {calls : List (ν × ReadCall β)} (hR : Recorded s)
    (hs : s.handlers = [h]) (hstage : h.stage = .reading calls) :
    Recorded ((s.setCache p
      (CacheNode.internalRead (s.nodes p).cache (some h.request.key)).1).setStage 0
      (.reading (calls.set j (p,
        (CacheNode.internalRead (s.nodes p).cache (some h.request.key)).2)))) := by
  obtain ⟨hshares, hfound, hback⟩ := internalRead_spec (s.nodes p).cache h.request.key
  refine hR.setCall hs hstage cache_setCall hshares (fun _ _ => get?_setCache rfl) rfl
    (handlers_setStage hs) (fun v hv => ?_) fun o ho => ?_
  · obtain ⟨e, hcopy, hvalid, rfl⟩ := hfound v hv
    exact ⟨⟨p, e, hcopy, hvalid⟩, hR.shown p _ e ⟨hcopy, hvalid⟩⟩
  · obtain ⟨e, hcopy, hobject, hstate⟩ := hback o ho
    have he : Valid s p h.request.key e := ⟨hcopy, by rw [hstate]; simp⟩
    exact ⟨e, hobject, he.2, ⟨p, e, he⟩, hR.shown p _ e he, hR.modified p _ e he hstate⟩

/-- A peer has written the entry back: its memory had the value already. -/
theorem Recorded.internalReadDone {calls : List (ν × ReadCall β)} {o : ℕ} (hR : Recorded s)
    (hs : s.handlers = [h]) (hstage : h.stage = .reading calls)
    (hj : calls[j]? = some (p, .writingBack o))
    (hobject : (s.nodes p).cache.objects[o]? = some entry) :
    Recorded (((s.writeMemory p h.request.key entry.value).setCache p
      ((s.nodes p).cache.setState o .S)).setStage 0
      (.reading (calls.set j (p, .answered (some entry.value))))) := by
  have hmem : h ∈ s.handlers := by rw [hs]; exact List.mem_singleton_self h
  obtain ⟨e, he, hvalid, hheld, hshown, hkept⟩ :=
    (hR.informed h hmem).writingBack p o ⟨calls, hstage, List.mem_of_getElem? hj⟩
  rw [hobject] at he
  cases he
  refine hR.setCall hs hstage (fun q => (cache_setCall q).trans (by rw [cache_writeMemory]))
    (LruCache.shares_setState_S hobject hvalid) (fun q key => ?_) rfl (handlers_setStage hs)
    (fun v hv => ?_) fun o ho => nomatch ho
  · exact (get?_setCache (s := s.writeMemory p h.request.key entry.value) rfl).trans
      (get?_writeMemory_same hkept)
  · cases hv
    exact ⟨hheld, hshown⟩

/-- A peer serves an invalidation. -/
theorem Recorded.internalInvalidate {value : β} {calls : List (ν × Bool)} (hR : Recorded s)
    (hs : s.handlers = [h]) (hopen : h.unfinished = true) :
    Recorded ((s.setCache p ((s.nodes p).cache.invalidate h.request.key)).setStage 0
      (.invalidating value calls)) := by
  have hafter : ((s.setCache p ((s.nodes p).cache.invalidate h.request.key)).setStage 0
      (.invalidating value calls)).handlers = [{ h with stage := .invalidating value calls }] :=
    handlers_setStage hs
  have htold := told_of_goesOn hs hafter rfl hopen rfl
  refine hR.keep (by rw [hafter]; exact Nat.le_refl 1) (fun key => by rw [htold])
    (fun n key => by rw [htold]) (fun _ _ => get?_setCache rfl) (fun q key => ?_) fun h' hmem => ?_
  · exact forall_cache (LruCache.Weakens.refl key) cache_setCall
      (LruCache.weakens_invalidate _ _ _) q
  · rw [hafter, List.mem_singleton] at hmem
    subst hmem
    exact informed_of_put (.inl ⟨_, _, rfl⟩)

/-- A put writes to memory and installs its entry, when no other node holds the key. -/
theorem Recorded.written {value : β} (hR : Recorded s) (hs : s.handlers = [h])
    (hopen : h.unfinished = true) (hrequest : h.request = .put h.request.key value)
    (halone : ∀ q, q ≠ h.node → NoCopy s q h.request.key) :
    Recorded ((s.writeMemory h.node h.request.key value).install 0 h ⟨value, .M⟩
      (.ok h.request.key)) := by
  refine hR.install (fun _ => cache_writeMemory) hs (told_of_unfinished hs hopen).symm
    (fun q e hq he => absurd he (halone q hq e)) ?_ (fun q key => ?_) (fun q key hplace => ?_)
    fun _ => ?_
  · rw [hrequest]
    exact if_pos rfl
  · rw [get?_writeMemory, hR.memory, lastPutAt_append]
    rw [hrequest, writtenAt_put]
    by_cases hplace : q = h.node ∧ key = h.request.key
    · rw [if_pos hplace, Option.some_or]
      exact if_pos hplace
    · rw [if_neg hplace, Option.none_or]
      exact if_neg hplace
  · rw [get?_writeMemory, if_neg]
    rintro ⟨rfl, rfl⟩
    simp at hplace
  · rw [get?_writeMemory, if_pos ⟨rfl, rfl⟩]

/-- An evicted entry has been written back: the memory had the value already. -/
theorem Recorded.evicted {key : String} {value : β} (hR : Recorded s) (hs : s.handlers = [h])
    (hstage : h.stage = .evicting key value response) :
    Recorded ((s.writeMemory h.node key value).finish 0 h response) := by
  have hmem : h ∈ s.handlers := by rw [hs]; exact List.mem_singleton_self h
  have hkept := (hR.informed h hmem).evicting key value response hstage
  have htold : told ((s.writeMemory h.node key value).finish 0 h response) = told s :=
    (told_finish hs).trans (told_evicted hs hstage).symm
  have hafter : ((s.writeMemory h.node key value).finish 0 h response).handlers = [] :=
    handlers_finish hs
  refine hR.keep (by rw [hafter]; exact Nat.zero_le 1) (fun key => by rw [htold])
    (fun n key => by rw [htold]) (fun _ _ => get?_writeMemory_same hkept) (fun q key' => ?_)
    fun h' hmem' => ?_
  · rw [show (((s.writeMemory h.node key value).finish 0 h response).nodes q).cache =
      (s.nodes q).cache from cache_writeMemory]
    exact .refl _ _
  · rw [hafter] at hmem'
    cases hmem'

/-- Every step keeps the caches and memories in agreement with the answers. -/
theorem Recorded.step {a : Action ν β} (hI : Inv M s) (hR : Recorded s) (hok : Sequential M s a)
    (hmove : Moves M s a s') : Recorded s' := by
  cases hmove with
  | refuseGet n =>
      exact hR.answer hok.1 (told_answer hok.1) (fun key value hvalue => nomatch hvalue)
        (fun _ _ => rfl) (fun _ _ => rfl) fun _ _ => .refl _ _
  | refusePut n value =>
      exact hR.answer hok (told_answer hok) (fun key value hvalue => nomatch hvalue)
        (fun _ _ => rfl) (fun _ _ => rfl) fun _ _ => .refl _ _
  | @hit n key o entry hget =>
      obtain ⟨-, -, hcopy, hvalid, htouch⟩ := LruCache.get_eq_some hget
      have hcache : ∀ q, ((s.setCache n ((s.nodes n).cache.get key).1).nodes q).cache =
          if q = n then (s.nodes n).cache.touch key else (s.nodes q).cache := by
        intro q
        rw [htouch]
        exact cache_setCache
      refine hR.answer hok.1 (told_answer hok.1) (fun key' value hvalue => ?_) (fun _ _ => rfl)
        (fun _ _ => get?_setCache rfl) fun q key' =>
          forall_cache (LruCache.Weakens.refl key') hcache LruCache.weakens_touch q
      simp only [CacheNode.shown, Option.ite_none_right_eq_some, Option.some.injEq] at hvalue
      obtain ⟨rfl, rfl⟩ := hvalue
      exact hR.shown n key entry ⟨hcopy, hvalid⟩
  | @miss n key hkey hget =>
      refine hR.begin hok.1 rfl (informed_of_begin fun e he => ?_)
      exact he.2 ((LruCache.get_eq_none hget).2 e he.1)
  | @put n key value hkey =>
      exact hR.begin hok rfl (informed_of_put (.inl ⟨_, _, rfl⟩))
  | @internalRead i j h calls peer hi hstage hj =>
      rw [queryKey_of_reading (hI.fits h (List.mem_of_getElem? hi)) hstage]
      obtain ⟨rfl, hs⟩ := hR.only hi
      exact hR.internalRead hs hstage
  | @internalReadDone i j h calls peer o key entry hi hstage hj hkey hobject =>
      rw [queryKey_of_reading (hI.fits h (List.mem_of_getElem? hi)) hstage] at hkey
      cases hkey
      obtain ⟨rfl, hs⟩ := hR.only hi
      exact hR.internalReadDone hs hstage hj hobject
  | @internalInvalidate i j h value calls peer hi hstage hj =>
      obtain ⟨-, hopen, -⟩ :=
        isPut_of_invalidating (hI.fits h (List.mem_of_getElem? hi)) hstage
      obtain ⟨rfl, hs⟩ := hR.only hi
      exact hR.internalInvalidate hs hopen
  | @found i h calls answers value hi hstage hanswers hfound =>
      have hmem : h ∈ s.handlers := List.mem_of_getElem? hi
      obtain ⟨rfl, hs⟩ := hR.only hi
      exact hR.installGet hs (unfinished_of_reading hstage)
        (isGet_of_reading (hI.fits h hmem) hstage).1 (by simp) fun q e hq he =>
          (hI.shared_of_found hmem hstage hanswers hfound q e hq he).1
  | @notFound i h calls answers hi hstage hanswers hfound =>
      have hmem : h ∈ s.handlers := List.mem_of_getElem? hi
      obtain ⟨rfl, hs⟩ := hR.only hi
      refine hR.setStage hs (unfinished_of_reading hstage) rfl (informed_of_fetching rfl ?_)
      rintro ⟨q, e, he⟩
      by_cases hq : q = h.node
      · subst hq
        exact (hR.informed h hmem).absent calls hstage e he
      · exact hI.alone_of_notFound hmem hstage hanswers hfound q hq e he
  | @unknown i h hi hstage hmemory =>
      obtain ⟨rfl, hs⟩ := hR.only hi
      have hget := isGet_of_fetching (hI.fits h (List.mem_of_getElem? hi)) hstage
      have htold : told (s.finish 0 h (.error "not_found" 404)) =
          told s ++ [(h.node, h.request, .error "not_found" 404)] := by
        rw [told_finish hs, told_of_unfinished hs (by rw [Handler.unfinished, hstage])]
      refine hR.answer (handlers_finish hs) htold (fun key value hvalue => ?_)
        (fun m key => writtenAt_of_get hget) (fun _ _ => rfl) fun _ _ => .refl _ _
      obtain ⟨n, request, stage⟩ := h
      cases request with
      | get key' => cases hvalue
      | put key' value' => cases hget
  | @fetched i h value hi hstage hmemory =>
      have hmem : h ∈ s.handlers := List.mem_of_getElem? hi
      obtain ⟨rfl, hs⟩ := hR.only hi
      exact hR.installGet hs (by rw [Handler.unfinished, hstage])
        (isGet_of_fetching (hI.fits h hmem) hstage) (by simp) fun q e hq he =>
          absurd he ((hI.settled h hmem).exclusive (.inl hstage) q hq e)
  | @invalidated i h value calls hi hstage hcalls =>
      obtain ⟨-, hopen, -⟩ :=
        isPut_of_invalidating (hI.fits h (List.mem_of_getElem? hi)) hstage
      obtain ⟨rfl, hs⟩ := hR.only hi
      exact hR.setStage hs hopen rfl (informed_of_put (.inr ⟨value, rfl⟩))
  | @written i h value hi hstage =>
      have hmem : h ∈ s.handlers := List.mem_of_getElem? hi
      obtain ⟨rfl, hs⟩ := hR.only hi
      exact hR.written hs (by rw [Handler.unfinished, hstage])
        (request_of_writing (hI.fits h hmem) hstage)
        ((hI.settled h hmem).exclusive (.inr ⟨value, hstage⟩))
  | @evicted i h key value response hi hstage =>
      obtain ⟨rfl, hs⟩ := hR.only hi
      exact hR.evicted hs hstage

theorem recorded_initial : Recorded (initial M : Cluster ν β) where
  one := Nat.zero_le 1
  shown := fun _ _ _ he => nomatch he.1
  memory := fun _ _ => rfl
  modified := fun _ _ _ he => nomatch he.1
  informed := fun _ hmem => nomatch hmem

/-- **The caches and memories agree with the answers** in every run of requests that do not
overlap. -/
theorem recorded_run (h : Run (CacheNode.step M) (Sequential M) (initial M) s) :
    Inv M s ∧ Recorded s := by
  refine Run.invariant (I := fun s => Inv M s ∧ Recorded s) (fun _ _ _ hI hok hstep => ?_) h
    ⟨inv_initial, recorded_initial⟩
  have hmove := moves_of_step hstep
  exact ⟨hI.1.step hok.undisturbed hmove, hI.2.step hI.1 hok hmove⟩

end Steps

end CacheNode
