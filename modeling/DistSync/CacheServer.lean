/-
**One cache node, whatever its peers do.**

This module looks at a single `DistributedCacheNode` from inside.  Its handlers run between their
awaits without interruption; requests may come at any time, and the answers of the peers may be
anything.  Values are those of JSON, and `isNull` tells which of them is null: a null that a peer
or the memory has is taken for no value.

Whatever a handler does to the cache between two awaits is one of a few changes.  Each of them keeps
the valid keys and the order of use together, and leaves invalid objects invalid, with one
exception: a read by a peer that has written back a modified entry makes it shared, even if the
entry was invalidated in the meantime.

Main definitions:

* `CacheServer.step` — **one step of the node**;
* `CacheServer.Touches` — the changes that keep the cache in order;
* `CacheServer.Spared` — no write-back ends for an entry that was invalidated.

Main results:

* `CacheServer.touches_of_step` — every other step makes such a change;
* `CacheServer.touches_of_moves` — the link to the cluster, whose steps make such changes at every
  node too;
* `CacheServer.deadCopies` — **an invalidated copy stays dead**, as long as no write-back ends so;
* `CacheServer.deadCopies_fails` — a copy that comes back to life.
-/

import DistSync.CacheReads
import DistSync.LruRefinement

set_option relaxedAutoImplicit false
set_option autoImplicit false

namespace CacheServer

open CacheNode Runs

variable {β : Type*}

/-! ### The node and its handlers -/

/-- The places at which a handler waits. -/
inductive Waiting (β : Type*)
  /-- `handle_get`, for the answers of its peers -/
  | reading (key : String)
  /-- `handle_get`, for the memory -/
  | fetching (key : String)
  /-- `handle_put`, for the answers of its peers -/
  | invalidating (key : String) (value : β)
  /-- `handle_put`, for the memory -/
  | writing (key : String) (value : β)
  /-- both, for the write-back of an evicted entry -/
  | evicting (key : String) (value : β)
  /-- `handle_internal_read`, for the write-back of the entry it found -/
  | writingBack (key : String) (object : ℕ)

/-- A node with its running handlers. -/
structure Server (β : Type*) where
  node : DistributedCacheNode β
  handlers : List (Waiting β)

/-- The node after its start. -/
def initial (capacity : ℕ) : Server β := ⟨⟨.empty capacity, ∅⟩, []⟩

/-- The steps: a request comes, with a key or without, or a handler goes on.  A handler that has
waited for its peers goes on with the value that the first of them has found. -/
inductive Action (β : Type*)
  | get (key : Option String)
  | put (key : Option String) (value : β)
  | internalRead (key : Option String)
  | internalInvalidate (key : Option String)
  | resume (handler : ℕ) (found : Option β)

namespace Server

variable (s : Server β)

/-- The server with another cache. -/
def setCache (cache : LruCache β) : Server β := { s with node := { s.node with cache := cache } }

/-- The server after a write to its memory. -/
def writeMemory (key : String) (value : β) : Server β :=
  { s with node := { s.node with memoryDb := s.node.memoryDb.set key value } }

/-- The server with a new handler. -/
def begin (handler : Waiting β) : Server β := { s with handlers := s.handlers ++ [handler] }

/-- The server with one handler at another place. -/
def wait (i : ℕ) (handler : Waiting β) : Server β := { s with handlers := s.handlers.set i handler }

/-- The server after a handler has answered and ended. -/
def finish (i : ℕ) : Server β := { s with handlers := s.handlers.eraseIdx i }

/-- The end of `handle_get` and `handle_put`. -/
def install (i : ℕ) (key : String) (entry : CacheEntry β) : Server β :=
  let (cache, evicted) := s.node.cache.put key entry
  let s := s.setCache cache
  match evicted with
  | none => s.finish i
  | some (key, evicted) =>
      if evicted.state = .M then s.wait i (.evicting key evicted.value) else s.finish i

end Server

/-- A key that is there and not empty. -/
def present (key : Option String) : Option String := key.filter (· ≠ "")

/-- **One step of the node.** -/
def step (isNull : β → Bool) (s : Server β) : Action β → Option (Server β)
  | .get key =>
      match present key with
      | none => some s
      | some key =>
          match s.node.cache.get key with
          | (cache, some _) => some (s.setCache cache)
          | (_, none) => some (s.begin (.reading key))
  | .put key value =>
      match present key with
      | none => some s
      | some key => some (s.begin (.invalidating key value))
  | .internalRead key =>
      match key with
      | none => some s
      | some key =>
          match CacheNode.internalRead s.node.cache (some key) with
          | (cache, .writingBack o) => some ((s.setCache cache).begin (.writingBack key o))
          | (cache, _) => some (s.setCache cache)
  | .internalInvalidate key =>
      match present key with
      | none => some s
      | some key => some (s.setCache (s.node.cache.invalidate key))
  | .resume i found =>
      match s.handlers[i]? with
      | none => none
      | some (.reading key) =>
          match found.filter fun value => !isNull value with
          | some value => some (s.install i key ⟨value, .S⟩)
          | none => some (s.wait i (.fetching key))
      | some (.fetching key) =>
          match (s.node.memoryDb.get? key).filter fun value => !isNull value with
          | some value => some (s.install i key ⟨value, .E⟩)
          | none => some (s.finish i)
      | some (.invalidating key value) => some (s.wait i (.writing key value))
      | some (.writing key value) =>
          some ((s.writeMemory key value).install i key ⟨value, .M⟩)
      | some (.evicting key value) => some ((s.writeMemory key value).finish i)
      | some (.writingBack key o) =>
          match s.node.cache.objects[o]? with
          | none => none
          | some entry =>
              -- the entry becomes shared, whatever its state is by now
              some (((s.writeMemory key entry.value).setCache (s.node.cache.setState o .S)).finish i)

/-! ### What happens to the cache -/

/-- The changes of a cache that make no invalid object valid. -/
inductive Touches (c : LruCache β) : LruCache β → Prop
  | refl : Touches c c
  | get (key : String) : Touches c (c.get key).1
  | put (key : String) (entry : CacheEntry β) (hentry : entry.state ≠ .I) :
      Touches c (c.put key entry).1
  | invalidate (key : String) : Touches c (c.invalidate key)
  | read (key : String) : Touches c (CacheNode.internalRead c (some key)).1
  | share {o : ℕ} {entry : CacheEntry β} (hobject : c.objects[o]? = some entry)
      (hvalid : entry.state ≠ .I) : Touches c (c.setState o .S)

/-- A handler has written back an entry that is invalid by now. -/
def Server.endsDead (s : Server β) (i : ℕ) : Bool :=
  match s.handlers[i]? with
  | some (.writingBack _ o) => s.node.cache.objects[o]?.any fun entry => entry.state = .I
  | _ => false

/-- No write-back ends for an entry that has been invalidated since the read found it. -/
def Spared (s : Server β) : Action β → Prop
  | .resume i _ => s.endsDead i = false
  | _ => True

instance (s : Server β) (a : Action β) : Decidable (Spared s a) :=
  match a with
  | .get _ => .isTrue trivial
  | .put _ _ => .isTrue trivial
  | .internalRead _ => .isTrue trivial
  | .internalInvalidate _ => .isTrue trivial
  | .resume i _ => inferInstanceAs (Decidable (s.endsDead i = false))

theorem Spared.valid {s : Server β} {i : ℕ} {found : Option β} (hok : Spared s (.resume i found))
    {key : String} {o : ℕ} (hi : s.handlers[i]? = some (.writingBack key o)) {entry : CacheEntry β}
    (hobject : s.node.cache.objects[o]? = some entry) : entry.state ≠ .I := by
  intro hinvalid
  rw [Spared, Server.endsDead, hi] at hok
  simp only [hobject, Option.any_some, hinvalid] at hok
  cases hok

theorem cache_install (s : Server β) (i : ℕ) (key : String) (entry : CacheEntry β) :
    (s.install i key entry).node.cache = (s.node.cache.put key entry).1 := by
  unfold Server.install
  simp only
  split
  · rfl
  · split <;> rfl

/-- **Every step that spares the invalid objects makes such a change.** -/
theorem touches_of_step {isNull : β → Bool} {s s' : Server β} {a : Action β} (hok : Spared s a)
    (h : step isNull s a = some s') : Touches s.node.cache s'.node.cache := by
  cases a with
  | get key =>
      simp only [step] at h
      split at h
      · cases h
        exact .refl
      · next key' _ =>
          split at h
          · next cache found hget =>
              cases h
              have hcache : cache = (s.node.cache.get key').1 := by rw [hget]
              rw [hcache]
              exact .get key'
          · cases h
            exact .refl
  | put key value =>
      simp only [step] at h
      split at h <;> cases h <;> exact .refl
  | internalRead key =>
      cases key with
      | none =>
          cases h
          exact .refl
      | some key =>
          simp only [step] at h
          split at h
          · next cache o hread =>
              cases h
              have hcache : cache = (CacheNode.internalRead s.node.cache (some key)).1 := by
                rw [hread]
              rw [hcache]
              exact .read key
          · next cache call _ hread =>
              cases h
              have hcache : cache = (CacheNode.internalRead s.node.cache (some key)).1 := by
                rw [hread]
              rw [hcache]
              exact .read key
  | internalInvalidate key =>
      simp only [step] at h
      split at h <;> cases h
      · exact .refl
      · exact .invalidate _
  | resume i found =>
      simp only [step] at h
      split at h
      · cases h
      · split at h <;> cases h
        · rw [cache_install]
          exact .put _ _ (by simp)
        · exact .refl
      · split at h <;> cases h
        · rw [cache_install]
          exact .put _ _ (by simp)
        · exact .refl
      · cases h
        exact .refl
      · cases h
        rw [cache_install]
        exact .put _ _ (by simp)
      · cases h
        exact .refl
      · next key o hi =>
          split at h
          · cases h
          · next entry hobject =>
              cases h
              exact .share hobject (hok.valid hi hobject)

/-! ### What the changes keep -/

/-- An object is invalid. -/
def Dead (c : LruCache β) (o : ℕ) : Prop := ∃ entry, c.objects[o]? = some entry ∧ entry.state = .I

theorem dead_setState {c : LruCache β} {o o' : ℕ} {state : Mesi} (hdead : Dead c o)
    (h : o = o' → state = .I) : Dead (c.setState o' state) o := by
  obtain ⟨entry, hobject, hinvalid⟩ := hdead
  refine ⟨if o' = o then ⟨entry.value, state⟩ else entry, ?_, ?_⟩
  · simp [LruCache.setState, List.getElem?_modify, hobject]
  · split
    · next heq => exact h heq.symm
    · exact hinvalid

theorem dead_invalidate {c : LruCache β} {o : ℕ} (hdead : Dead c o) (key : String) :
    Dead (c.invalidate key) o := by
  unfold LruCache.invalidate
  split
  · exact hdead
  · exact dead_setState hdead fun _ => rfl

theorem objects_get (c : LruCache β) (key : String) : (c.get key).1.objects = c.objects := by
  cases hget : (c.get key).2 with
  | none => rw [(LruCache.get_eq_none hget).1]
  | some found =>
      obtain ⟨-, -, -, -, hcache⟩ := @LruCache.get_eq_some _ _ _ found.1 found.2 hget
      rw [hcache]
      rfl

/-- An internal read is a read, and may share the valid entry that it finds. -/
theorem internalRead_fst (c : LruCache β) (key : String) :
    (CacheNode.internalRead c (some key)).1 = (c.get key).1 ∨
      ∃ o entry, (c.get key).1.objects[o]? = some entry ∧ entry.state ≠ .I ∧
        (CacheNode.internalRead c (some key)).1 = (c.get key).1.setState o .S := by
  cases hget : c.get key with
  | mk cache found =>
      cases found with
      | none => exact .inl (by simp only [CacheNode.internalRead, hget])
      | some found =>
          obtain ⟨o, entry⟩ := found
          obtain ⟨-, hobject, -, hvalid, -⟩ :=
            LruCache.get_eq_some (show (c.get key).2 = some (o, entry) by rw [hget])
          rw [← objects_get c key, hget] at hobject
          cases hstate : entry.state with
          | M => exact .inl (by simp only [CacheNode.internalRead, hget, hstate])
          | E => exact .inr ⟨o, entry, hobject, hvalid, by
              simp only [CacheNode.internalRead, hget, hstate]⟩
          | S => exact .inl (by simp only [CacheNode.internalRead, hget, hstate])
          | I => exact absurd hstate hvalid

/-- **No change makes an invalid object valid.** -/
theorem Touches.dead {c c' : LruCache β} {o : ℕ} (h : Touches c c') (hdead : Dead c o) :
    Dead c' o := by
  have hget : ∀ key, Dead (c.get key).1 o := fun key => by
    rw [Dead, objects_get]
    exact hdead
  have hshare : ∀ (c : LruCache β) (o' : ℕ) (entry : CacheEntry β), Dead c o →
      c.objects[o']? = some entry → entry.state ≠ .I → Dead (c.setState o' .S) o := by
    intro c o' entry hdead hobject hvalid
    refine dead_setState hdead ?_
    rintro rfl
    obtain ⟨entry', hobject', hinvalid⟩ := hdead
    rw [hobject] at hobject'
    cases hobject'
    exact absurd hinvalid hvalid
  cases h with
  | refl => exact hdead
  | get key => exact hget key
  | put key entry hentry =>
      obtain ⟨entry', hobject, hinvalid⟩ := hdead
      obtain ⟨hlt, -⟩ := List.getElem?_eq_some_iff.1 hobject
      exact ⟨entry', by rw [LruCache.objects_put, List.getElem?_append_left hlt, hobject], hinvalid⟩
  | invalidate key => exact dead_invalidate hdead key
  | read key =>
      rcases internalRead_fst c key with hcache | ⟨o', entry, hobject, hvalid, hcache⟩
      · rw [hcache]
        exact hget key
      · rw [hcache]
        exact hshare _ o' entry (hget key) hobject hvalid
  | share hobject hvalid => exact hshare c _ _ hdead hobject hvalid

/-- **All changes keep the order of use and the valid keys together.** -/
theorem Touches.tracks {c c' : LruCache β} (h : Touches c c') (htracks : c.Tracks) : c'.Tracks := by
  obtain ⟨l, hl⟩ := LruCache.tracks_iff.1 htracks
  have hget : ∀ key, (c.get key).1.Tracks := fun key =>
    LruCache.tracks_iff.2 ⟨_, (LruCache.refines_get hl key).2⟩
  cases h with
  | refl => exact htracks
  | get key => exact hget key
  | put key entry hentry => exact LruCache.tracks_iff.2 ⟨_, (LruCache.refines_put hl key hentry).2⟩
  | invalidate key => exact LruCache.tracks_iff.2 ⟨_, LruCache.refines_invalidate hl key⟩
  | read key =>
      rcases internalRead_fst c key with hcache | ⟨o, entry, hobject, hvalid, hcache⟩
      · rw [hcache]
        exact hget key
      · rw [hcache]
        exact (hget key).setState_S hobject hvalid
  | share hobject hvalid => exact htracks.setState_S hobject hvalid

/-! ### The nodes of a cluster -/

section Cluster

variable {ν : Type*} [DecidableEq ν] {M : Setup ν} {s s' : Cluster ν β}

/-- A change of the cache of one node. -/
theorem touches_setCache {t : Cluster ν β} (hsame : ∀ n, (t.nodes n).cache = (s.nodes n).cache)
    {p : ν} {cache : LruCache β} (h : Touches (s.nodes p).cache cache) (n : ν) :
    Touches (s.nodes n).cache ((t.setCache p cache).nodes n).cache := by
  rw [cache_setCache]
  split
  · next heq => exact heq ▸ h
  · rw [hsame]
    exact .refl

/-- **In a cluster the cache of every node is changed in the same ways**, as long as no write-back
ends for an entry that was invalidated meanwhile. -/
theorem touches_of_moves {a : CacheNode.Action ν β} (h : Moves M s a s')
    (hok : ∀ i j h calls peer o entry, a = .internalReadDone i j → s.handlers[i]? = some h →
      h.stage = .reading calls → calls[j]? = some (peer, .writingBack o) →
        (s.nodes peer).cache.objects[o]? = some entry → entry.state ≠ .I) (n : ν) :
    Touches (s.nodes n).cache (s'.nodes n).cache := by
  have hinstall : ∀ (t : Cluster ν β), (∀ n, (t.nodes n).cache = (s.nodes n).cache) →
      ∀ i (h : Handler ν β) (entry : CacheEntry β) response, entry.state ≠ .I →
        Touches (s.nodes n).cache ((t.install i h entry response).nodes n).cache := by
    intro t hsame i h entry response hentry
    rw [(install_cases t i h entry response).1]
    refine touches_setCache hsame ?_ n
    rw [hsame]
    exact .put h.request.key entry hentry
  cases h with
  | refuseGet => exact .refl
  | refusePut => exact .refl
  | hit hget => exact touches_setCache (fun _ => rfl) (.get _) n
  | miss => exact .refl
  | put => exact .refl
  | @internalRead i j h calls peer hi hstage hj =>
      refine touches_setCache (fun _ => rfl) ?_ n
      cases M.queryKey h.request.key with
      | none => exact .refl
      | some key => exact .read key
  | @internalReadDone i j h calls peer o key entry hi hstage hj hkey hobject =>
      exact touches_setCache (fun _ => cache_writeMemory)
        (.share hobject (hok i j h calls peer o entry rfl hi hstage hj hobject)) n
  | internalInvalidate => exact touches_setCache (fun _ => rfl) (.invalidate _) n
  | found => exact hinstall s (fun _ => rfl) _ _ _ _ (by simp)
  | notFound => exact .refl
  | unknown => exact .refl
  | fetched => exact hinstall s (fun _ => rfl) _ _ _ _ (by simp)
  | invalidated => exact .refl
  | written => exact hinstall _ (fun _ => cache_writeMemory) _ _ _ _ (by simp)
  | evicted =>
      show Touches _ ((s.writeMemory _ _ _).nodes n).cache
      rw [cache_writeMemory]
      exact .refl

end Cluster

/-! ### Runs -/

/-- **An invalidated copy stays dead, and the valid keys are those in the order of use**, in every
run in which no write-back ends for an entry that was invalidated meanwhile. -/
theorem deadCopies {isNull : β → Bool} {capacity : ℕ} {s s' : Server β}
    (hrun : Run (step isNull) Spared (initial capacity) s) (hrun' : Run (step isNull) Spared s s') :
    (∀ o, Dead s.node.cache o → Dead s'.node.cache o) ∧
      ∀ key, (∃ entry, s'.node.cache.copy key = some entry ∧ entry.state ≠ .I) ↔
        key ∈ s'.node.cache.lru := by
  constructor
  · intro o hdead
    exact hrun'.invariant (I := fun s => Dead s.node.cache o)
      (fun _ _ _ hdead hok hstep => (touches_of_step hok hstep).dead hdead) hdead
  · intro key
    have htracks : s'.node.cache.Tracks := (hrun.trans hrun').invariant
      (I := fun s => s.node.cache.Tracks)
      (fun _ _ _ htracks hok hstep => (touches_of_step hok hstep).tracks htracks)
      (LruCache.tracks_iff.2 ⟨[], LruCache.refines_empty capacity⟩)
    exact (htracks.mem key).symm

/-- A key is put, read by a peer, and invalidated. -/
def readThenInvalidated : List (Action ℕ) :=
  [.put (some "k") 1, .resume 0 none, .resume 0 none, .internalRead (some "k"), .resume 0 none,
    .internalInvalidate (some "k")]

theorem deadCopies_readThenInvalidated : ∃ s : Server ℕ, Dead s.node.cache 0 ∧
    (∀ o, Dead s.node.cache o → Dead s.node.cache o) ∧
      ∀ key, (∃ entry, s.node.cache.copy key = some entry ∧ entry.state ≠ .I) ↔
        key ∈ s.node.cache.lru := by
  obtain ⟨s, hrun, hdead⟩ := Run.exists_of_exec (step fun _ => false) Spared (initial 1)
    readThenInvalidated (fun s => s.node.cache.objects[0]? = some ⟨1, .I⟩) (by decide)
  exact ⟨s, ⟨_, hdead, rfl⟩, deadCopies hrun (.refl s)⟩

/-- The key is invalidated while the read by a peer writes it back. -/
def invalidatedInRead : List (Action ℕ) :=
  [.put (some "k") 1, .resume 0 none, .resume 0 none, .internalRead (some "k"),
    .internalInvalidate (some "k")]

/-- When the write-back is done, the entry is shared, and no longer invalid. -/
theorem deadCopies_fails : ¬ ∀ s s' : Server ℕ,
    Run (step fun _ => false) anyAction (initial 1) s → Run (step fun _ => false) anyAction s s' →
      (∀ o, Dead s.node.cache o → Dead s'.node.cache o) ∧
        ∀ key, (∃ entry, s'.node.cache.copy key = some entry ∧ entry.state ≠ .I) ↔
          key ∈ s'.node.cache.lru := by
  intro hall
  obtain ⟨s, hrun, hdead, hnext⟩ := Run.exists_of_exec (step fun _ => false) anyAction (initial 1)
    invalidatedInRead (fun s => s.node.cache.objects[0]? = some ⟨1, .I⟩ ∧
      ((step (fun _ => false) s (.resume 0 none)).any fun s' =>
        s'.node.cache.objects[0]? = some ⟨1, .S⟩) = true) (by decide)
  obtain ⟨s', hstep, hlive⟩ := (Option.any_eq_true _ _).1 hnext
  obtain ⟨entry, hobject, hinvalid⟩ :=
    (hall s s' hrun (.single (a := .resume 0 none) trivial hstep)).1 0 ⟨_, hdead, rfl⟩
  rw [of_decide_eq_true hlive] at hobject
  cases hobject
  cases hinvalid

end CacheServer
