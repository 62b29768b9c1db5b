/-
**Requests that do not overlap: what a get returns.**

A get that begins while some node holds the key returns the value that an answer has shown last.
Otherwise it falls back to the memory of its own node, which only has what was put at this node, so
a value that was put elsewhere and has left all caches is not found.  A run in which every get of a
key has the key at hand, in some cache or in the memory of the last put, always returns the value of
the last put.

Main definitions:

* `CacheNode.Serving` — the steps that serve a request;
* `CacheNode.Expected` — **what a get returns**;
* `CacheNode.AtHand`, `CacheNode.ReadsLatest` — gets that have the key at hand, and gets that return
  the value of the last put.

Main results:

* `CacheNode.exists_served` — every request is answered;
* `CacheNode.expected_of_get` — what a get returns;
* `CacheNode.readsLatest_of_atHand` — gets that have the key at hand return the value of the last
  put;
* `CacheNode.sequentialReads` — **sequential reads**;
* `CacheNode.sequentialReads_fails` — a key that has left the cache of the node of its put.
-/

import DistSync.CacheHistory
import Mathlib.Algebra.GroupWithZero.Nat

set_option relaxedAutoImplicit false
set_option autoImplicit false

namespace CacheNode

open Runs

variable {ν β : Type*}

/-! ### Serving a request -/

/-- No request begins. -/
def Serving (_ : Cluster ν β) : Action ν β → Prop
  | .get _ _ => False
  | .put _ _ _ => False
  | _ => True

theorem Serving.sequential {M : Setup ν} {s : Cluster ν β} {a : Action ν β} (h : Serving s a) :
    Sequential M s a := by
  cases a with
  | get n key => exact h.elim
  | put n key value => exact h.elim
  | internalRead i j => trivial
  | internalReadDone i j => trivial
  | internalInvalidate i j => trivial
  | resume i => trivial

/-- The steps that a read of a peer still needs. -/
def ReadCall.work : ReadCall β → ℕ
  | .sent => 2
  | .writingBack _ => 1
  | .answered _ => 0

/-- The steps that a handler still needs, at most. -/
def Handler.work (h : Handler ν β) : ℕ :=
  match h.stage with
  | .reading calls => 4 + (calls.map fun call => call.2.work).sum
  | .fetching => 3
  | .invalidating _ calls => 4 + (calls.map fun call => if call.2 then 0 else 1).sum
  | .writing _ => 3
  | .evicting _ _ _ => 2

/-- The steps that the running handlers still need, at most. -/
def work (s : Cluster ν β) : ℕ := (s.handlers.map Handler.work).sum

theorem sum_map_set_lt {α : Type*} {f : α → ℕ} {l : List α} {j : ℕ} {x y : α}
    (hj : l[j]? = some x) (hless : f y < f x) : ((l.set j y).map f).sum < (l.map f).sum := by
  induction l generalizing j with
  | nil => cases hj
  | cons a l ih =>
      cases j with
      | zero =>
          cases hj
          simp only [List.set_cons_zero, List.map_cons, List.sum_cons]
          omega
      | succ j =>
          have hrest := ih hj
          simp only [List.set_cons_succ, List.map_cons, List.sum_cons]
          omega

theorem work_internalRead (c : LruCache β) (key : Option String) :
    (internalRead c key).2.work ≤ 1 := by
  cases key with
  | none => exact Nat.zero_le 1
  | some key =>
      rcases internalRead_cases c key with ⟨-, heq⟩ | ⟨o, e, -, -, -, -, heq⟩ |
        ⟨o, e, -, -, -, heq⟩ | ⟨e, -, -, heq⟩ <;> rw [heq] <;> simp [ReadCall.work]

section Steps

variable [DecidableEq ν] {M : Setup ν} {s s' : Cluster ν β} {i j : ℕ} {h : Handler ν β}
  {entry : CacheEntry β} {response : Response β}

omit [DecidableEq ν] in
theorem work_of_handlers (hs : s.handlers = [h]) : work s = h.work := by
  rw [work, hs, List.map_singleton, List.sum_singleton]

omit [DecidableEq ν] in
theorem work_setStage {stage : Stage ν β} (hs : s.handlers = [h]) :
    work (s.setStage 0 stage) = { h with stage := stage : Handler ν β }.work :=
  work_of_handlers (handlers_setStage hs)

omit [DecidableEq ν] in
theorem work_finish (hs : s.handlers = [h]) : work (s.finish 0 h response) = 0 := by
  rw [work, handlers_finish hs]
  rfl

theorem work_install (hs : s.handlers = [h]) : work (s.install 0 h entry response) ≤ 2 := by
  obtain ⟨-, -, ⟨hdone, -⟩ | ⟨key, evicted, -, -, -, hwaits⟩⟩ :=
    @install_spec ν β _ s h entry response hs
  · rw [work, hdone]
    exact Nat.zero_le 2
  · rw [work_of_handlers hwaits]
    exact Nat.le_refl 2

/-- **Every step that serves a request leaves less work.** -/
theorem work_lt {a : Action ν β} (hR : Recorded s) (hok : Serving s a) (hmove : Moves M s a s') :
    work s' < work s := by
  cases hmove with
  | refuseGet n => exact hok.elim
  | refusePut n value => exact hok.elim
  | hit hget => exact hok.elim
  | miss hkey hget => exact hok.elim
  | put hkey => exact hok.elim
  | @internalRead i j h calls peer hi hstage hj =>
      obtain ⟨rfl, hs⟩ := hR.only hi
      have hcall := work_internalRead (s.nodes peer).cache (M.queryKey h.request.key)
      rw [work_setStage (s := s.setCache peer _) hs, work_of_handlers hs, Handler.work,
        Handler.work, hstage]
      have hless := sum_map_set_lt (f := fun call : ν × ReadCall β => call.2.work)
        (y := (peer, (internalRead (s.nodes peer).cache (M.queryKey h.request.key)).2)) hj
        (Nat.lt_succ_of_le hcall)
      simp only
      omega
  | @internalReadDone i j h calls peer o key entry hi hstage hj hkey hobject =>
      obtain ⟨rfl, hs⟩ := hR.only hi
      rw [work_setStage (s := (s.writeMemory peer key entry.value).setCache peer _) hs,
        work_of_handlers hs, Handler.work, Handler.work, hstage]
      have hless := sum_map_set_lt (f := fun call : ν × ReadCall β => call.2.work)
        (y := (peer, .answered (some entry.value))) hj Nat.zero_lt_one
      simp only
      omega
  | @internalInvalidate i j h value calls peer hi hstage hj =>
      obtain ⟨rfl, hs⟩ := hR.only hi
      rw [work_setStage (s := s.setCache peer _) hs, work_of_handlers hs, Handler.work,
        Handler.work, hstage]
      have hless := sum_map_set_lt (f := fun call : ν × Bool => if call.2 then 0 else 1)
        (y := (peer, true)) hj Nat.zero_lt_one
      simp only
      omega
  | @found i h calls answers value hi hstage hanswers hfound =>
      obtain ⟨rfl, hs⟩ := hR.only hi
      have hafter := @work_install ν β _ s h ⟨value, .S⟩ (.value h.request.key value .S) hs
      rw [work_of_handlers hs, Handler.work, hstage]
      simp only
      omega
  | @notFound i h calls answers hi hstage hanswers hfound =>
      obtain ⟨rfl, hs⟩ := hR.only hi
      rw [work_setStage hs, work_of_handlers hs, Handler.work, Handler.work, hstage]
      simp only
      omega
  | @unknown i h hi hstage hmemory =>
      obtain ⟨rfl, hs⟩ := hR.only hi
      rw [work_finish hs, work_of_handlers hs, Handler.work, hstage]
      exact Nat.zero_lt_succ 2
  | @fetched i h value hi hstage hmemory =>
      obtain ⟨rfl, hs⟩ := hR.only hi
      have hafter := @work_install ν β _ s h ⟨value, .E⟩ (.value h.request.key value .E) hs
      rw [work_of_handlers hs, Handler.work, hstage]
      exact Nat.lt_succ_of_le hafter
  | @invalidated i h value calls hi hstage hcalls =>
      obtain ⟨rfl, hs⟩ := hR.only hi
      rw [work_setStage hs, work_of_handlers hs, Handler.work, Handler.work, hstage]
      simp only
      omega
  | @written i h value hi hstage =>
      obtain ⟨rfl, hs⟩ := hR.only hi
      have hafter := @work_install ν β _ (s.writeMemory h.node h.request.key value) h ⟨value, .M⟩
        (.ok h.request.key) hs
      rw [work_of_handlers hs, Handler.work, hstage]
      exact Nat.lt_succ_of_le hafter
  | @evicted i h key value response hi hstage =>
      obtain ⟨rfl, hs⟩ := hR.only hi
      rw [work_finish (s := s.writeMemory h.node key value) hs, work_of_handlers hs, Handler.work,
        hstage]
      exact Nat.zero_lt_succ 1

/-- A running handler never waits for nothing. -/
theorem exists_serving (hI : Inv M s) (hR : Recorded s) (hbusy : s.handlers ≠ []) :
    ∃ a s', Serving s a ∧ step M s a = some s' := by
  obtain ⟨h, hmem⟩ := List.exists_mem_of_ne_nil _ hbusy
  obtain ⟨i, hi⟩ := List.mem_iff_getElem?.1 hmem
  obtain ⟨n, request, stage⟩ := h
  cases stage with
  | reading calls =>
      have hquery := queryKey_of_reading (hI.fits _ hmem) rfl
      by_cases hsent : ∃ p, (p, .sent) ∈ calls
      · obtain ⟨p, hp⟩ := hsent
        obtain ⟨j, hj⟩ := List.mem_iff_getElem?.1 hp
        exact ⟨.internalRead i j, _, trivial, by simp only [step, hi, hj]; rfl⟩
      · by_cases hback : ∃ p o, (p, .writingBack o) ∈ calls
        · obtain ⟨p, o, hp⟩ := hback
          obtain ⟨j, hj⟩ := List.mem_iff_getElem?.1 hp
          obtain ⟨e, he, -⟩ := (hR.informed _ hmem).writingBack p o ⟨calls, rfl, hp⟩
          exact ⟨.internalReadDone i j, _, trivial, by
            simp only [step, hi, hj, hquery, he]; rfl⟩
        · -- all peers have answered
          have hall : calls.all (fun call => call.2.answer?.isSome) = true := by
            refine List.all_eq_true.2 fun call hcall => ?_
            obtain ⟨p, call⟩ := call
            cases call with
            | sent => exact absurd ⟨p, hcall⟩ hsent
            | writingBack o => exact absurd ⟨p, o, hcall⟩ hback
            | answered value => rfl
          cases hfound : (calls.filterMap fun call => call.2.answer?).findSome? id with
          | none =>
              exact ⟨.resume i, _, trivial, by
                simp only [step, hi, readAnswers, if_pos hall, hfound]; rfl⟩
          | some value =>
              exact ⟨.resume i, _, trivial, by
                simp only [step, hi, readAnswers, if_pos hall, hfound]; rfl⟩
  | fetching =>
      cases hmemory : (s.nodes n).memoryDb.get? request.key with
      | none => exact ⟨.resume i, _, trivial, by simp only [step, hi, hmemory]; rfl⟩
      | some value => exact ⟨.resume i, _, trivial, by simp only [step, hi, hmemory]; rfl⟩
  | invalidating value calls =>
      by_cases hall : calls.all (·.2) = true
      · exact ⟨.resume i, _, trivial, by simp only [step, hi, if_pos hall]; rfl⟩
      · have hfalse : ∃ p, (p, false) ∈ calls := by simpa using hall
        obtain ⟨p, hp⟩ := hfalse
        obtain ⟨j, hj⟩ := List.mem_iff_getElem?.1 hp
        exact ⟨.internalInvalidate i j, _, trivial, by simp only [step, hi, hj]; rfl⟩
  | writing value => exact ⟨.resume i, _, trivial, by simp only [step, hi]; rfl⟩
  | evicting key value response => exact ⟨.resume i, _, trivial, by simp only [step, hi]; rfl⟩

/-- **Every request is answered.** -/
theorem exists_served (hI : Inv M s) (hR : Recorded s) :
    ∃ s', Run (CacheNode.step M) Serving s s' ∧ s'.handlers = [] := by
  refine Run.exists_of_work (I := fun s => Inv M s ∧ Recorded s) work (fun s hs hbusy => ?_)
    ⟨hI, hR⟩
  obtain ⟨a, s', hok, hnext⟩ := exists_serving hs.1 hs.2 hbusy
  have hmove := moves_of_step hnext
  exact ⟨a, s', hok, hnext, ⟨hs.1.step hok.sequential.undisturbed hmove,
    hs.2.step hs.1 hok.sequential hmove⟩, work_lt hs.2 hok hmove⟩

/-! ### What a get returns -/

/-- The answer of a get that has found no other node with the key. -/
def fromMemory (key : String) : Option β → Response β
  | some value => .value key value .E
  | none => .error "not_found" 404

/-- **What a get returns** that begins in a certain state: the value that was shown last, if the key
is valid at some node, and otherwise what was put last at the same node. -/
structure Expected (s : Cluster ν β) (n : ν) (key : String) (response : Response β) : Prop where
  held : Held s key → ∃ value state, response = .value key value state ∧
    lastShown key s.answers = some value
  absent : ¬ Held s key → response = fromMemory key (lastPutAt n key s.answers)

/-- A step that serves a request, as the answers and the caches show it: the handler goes on, or it
tells its answer, or it ends after the write-back of an evicted entry. -/
inductive Turn (s s' : Cluster ν β) : Prop
  | goesOn {h h' : Handler ν β} (hs : s.handlers = [h]) (hs' : s'.handlers = [h'])
      (hopen : h.unfinished = true) (hopen' : h'.unfinished = true) (hnode : h'.node = h.node)
      (hrequest : h'.request = h.request) (hanswers : s'.answers = s.answers)
      (hheld : h.isPut = false → ∀ key, Held s' key ↔ Held s key)
  | answers {h : Handler ν β} {response : Response β} (hs : s.handlers = [h])
      (hopen : h.unfinished = true)
      (htold : told s' = s.answers ++ [(h.node, h.request, response)])
      (hdone : ∀ h' ∈ s'.handlers, h'.unfinished = false)
      (hget : h.isPut = false → Expected s h.node h.request.key response)
      (hput : h.isPut = true → response = .ok h.request.key)
  | ends {h : Handler ν β} (hs : s.handlers = [h]) (hopen : h.unfinished = false)
      (hs' : s'.handlers = []) (htold : told s' = told s)

omit [DecidableEq ν] in
theorem unfinished_of_fetching (hstage : h.stage = .fetching) : h.unfinished = true := by
  rw [Handler.unfinished, hstage]

/-- A handler that installs its entry tells its answer. -/
theorem Turn.install {s₀ : Cluster ν β} (hs : s.handlers = [h]) (hopen : h.unfinished = true)
    (hs₀ : s₀.handlers = [h]) (hanswers : s₀.answers = s.answers)
    (hget : h.isPut = false → Expected s h.node h.request.key response)
    (hput : h.isPut = true → response = .ok h.request.key) :
    Turn s (s₀.install 0 h entry response) := by
  obtain ⟨htold, -, hafter⟩ := @install_spec ν β _ s₀ h entry response hs₀
  rw [hanswers] at htold
  refine .answers hs hopen htold (fun h' hmem => ?_) hget hput
  rcases hafter with ⟨hdone, -⟩ | ⟨key, evicted, -, -, -, hwaits⟩
  · rw [hdone] at hmem
    cases hmem
  · rw [hwaits, List.mem_singleton] at hmem
    rw [hmem]
    rfl

/-- **What a step can do that serves a request.** -/
theorem turn_of_serving {a : Action ν β} (hI : Inv M s) (hR : Recorded s) (hok : Serving s a)
    (hmove : Moves M s a s') : Turn s s' := by
  cases hmove with
  | refuseGet n => exact hok.elim
  | refusePut n value => exact hok.elim
  | hit hget => exact hok.elim
  | miss hkey hget => exact hok.elim
  | put hkey => exact hok.elim
  | @internalRead i j h calls peer hi hstage hj =>
      have hquery := queryKey_of_reading (hI.fits h (List.mem_of_getElem? hi)) hstage
      obtain ⟨rfl, hs⟩ := hR.only hi
      rw [hquery]
      refine .goesOn hs (handlers_setStage hs) (unfinished_of_reading hstage) rfl rfl rfl rfl
        fun _ key => held_of_shares fun q => ?_
      exact forall_cache LruCache.Shares.refl cache_setCall
        (internalRead_spec (s.nodes peer).cache h.request.key).1 q
  | @internalReadDone i j h calls peer o key entry hi hstage hj hkey hobject =>
      obtain ⟨e, he, hvalid, -⟩ := (hR.informed h (List.mem_of_getElem? hi)).writingBack peer o
        ⟨calls, hstage, List.mem_of_getElem? hj⟩
      obtain ⟨rfl, hs⟩ := hR.only hi
      refine .goesOn hs (handlers_setStage hs) (unfinished_of_reading hstage) rfl rfl rfl rfl
        fun _ key => held_of_shares fun q => ?_
      exact forall_cache LruCache.Shares.refl
        (fun q => (cache_setCall q).trans (by rw [cache_writeMemory]))
        (LruCache.shares_setState_S he hvalid) q
  | @internalInvalidate i j h value calls peer hi hstage hj =>
      obtain ⟨hput, hopen, -⟩ :=
        isPut_of_invalidating (hI.fits h (List.mem_of_getElem? hi)) hstage
      obtain ⟨rfl, hs⟩ := hR.only hi
      refine .goesOn hs (handlers_setStage hs) hopen rfl rfl rfl rfl fun hget => ?_
      rw [hput] at hget
      cases hget
  | @found i h calls answers value hi hstage hanswers hfound =>
      have hmem : h ∈ s.handlers := List.mem_of_getElem? hi
      have hget := (isGet_of_reading (hI.fits h hmem) hstage).1
      obtain ⟨rfl, hs⟩ := hR.only hi
      obtain ⟨answer, hanswer, hsome⟩ := List.exists_of_findSome?_eq_some hfound
      obtain rfl : answer = some value := hsome
      obtain ⟨p, hp⟩ := (readAnswers_eq_some hanswers).2 _ hanswer
      obtain ⟨hheld, hshown⟩ := (hR.informed h hmem).found calls p value hstage hp
      rw [told_of_unfinished hs (unfinished_of_reading hstage)] at hshown
      refine .install hs (unfinished_of_reading hstage) hs rfl (fun _ => ⟨fun _ => ?_, ?_⟩)
        fun hput => ?_
      · exact ⟨value, .S, rfl, hshown⟩
      · exact fun habsent => absurd hheld habsent
      · rw [hget] at hput
        cases hput
  | @notFound i h calls answers hi hstage hanswers hfound =>
      obtain ⟨rfl, hs⟩ := hR.only hi
      exact .goesOn hs (handlers_setStage hs) (unfinished_of_reading hstage) rfl rfl rfl rfl
        fun _ _ => .rfl
  | @unknown i h hi hstage hmemory =>
      have hmem : h ∈ s.handlers := List.mem_of_getElem? hi
      have hget := isGet_of_fetching (hI.fits h hmem) hstage
      have habsent := (hR.informed h hmem).fetching hstage
      obtain ⟨rfl, hs⟩ := hR.only hi
      refine .answers hs (unfinished_of_fetching hstage) (told_finish hs) (fun h' hmem' => ?_)
        (fun _ => ⟨fun hheld => absurd hheld habsent, fun _ => ?_⟩) fun hput => ?_
      · rw [handlers_finish hs] at hmem'
        cases hmem'
      · rw [hR.memory, told_of_unfinished hs (unfinished_of_fetching hstage)] at hmemory
        rw [hmemory]
        rfl
      · rw [hget] at hput
        cases hput
  | @fetched i h value hi hstage hmemory =>
      have hmem : h ∈ s.handlers := List.mem_of_getElem? hi
      have hget := isGet_of_fetching (hI.fits h hmem) hstage
      have habsent := (hR.informed h hmem).fetching hstage
      obtain ⟨rfl, hs⟩ := hR.only hi
      refine .install hs (unfinished_of_fetching hstage) hs rfl
        (fun _ => ⟨fun hheld => absurd hheld habsent, fun _ => ?_⟩) fun hput => ?_
      · rw [hR.memory, told_of_unfinished hs (unfinished_of_fetching hstage)] at hmemory
        rw [hmemory]
        rfl
      · rw [hget] at hput
        cases hput
  | @invalidated i h value calls hi hstage hcalls =>
      obtain ⟨hput, hopen, -⟩ :=
        isPut_of_invalidating (hI.fits h (List.mem_of_getElem? hi)) hstage
      obtain ⟨rfl, hs⟩ := hR.only hi
      exact .goesOn hs (handlers_setStage hs) hopen rfl rfl rfl rfl fun _ _ => .rfl
  | @written i h value hi hstage =>
      have hrequest := request_of_writing (hI.fits h (List.mem_of_getElem? hi)) hstage
      obtain ⟨rfl, hs⟩ := hR.only hi
      refine .install hs (by rw [Handler.unfinished, hstage]) hs rfl (fun hget => ?_) fun _ => rfl
      rw [Handler.isPut, hrequest] at hget
      cases hget
  | @evicted i h key value response hi hstage =>
      obtain ⟨rfl, hs⟩ := hR.only hi
      exact .ends hs (by rw [Handler.unfinished, hstage]) (handlers_finish hs)
        ((told_finish hs).trans (told_evicted hs hstage).symm)

/-- The progress of a get: it is running and has changed nothing yet, or it has told its answer. -/
def Progress (s : Cluster ν β) (n : ν) (key : String) (s' : Cluster ν β) : Prop :=
  (∃ h, s'.handlers = [h] ∧ h.unfinished = true ∧ h.node = n ∧ h.request = .get key ∧
    s'.answers = s.answers ∧ (Held s' key ↔ Held s key)) ∨
  (∃ response, Expected s n key response ∧ told s' = s.answers ++ [(n, .get key, response)] ∧
    ∀ h ∈ s'.handlers, h.unfinished = false)

omit [DecidableEq ν] in
theorem isPut_of_get {key : String} (hrequest : h.request = .get key) : h.isPut = false := by
  rw [Handler.isPut, hrequest]

theorem Expected.of_same {t : Cluster ν β} {n : ν} {key : String} (hanswers : t.answers = s.answers)
    (hheld : Held t key ↔ Held s key) (h : Expected t n key response) :
    Expected s n key response := by
  obtain ⟨hfound, habsent⟩ := h
  rw [hanswers, hheld] at hfound habsent
  exact ⟨hfound, habsent⟩

theorem Progress.turn {t t' : Cluster ν β} {n : ν} {key : String} (hP : Progress s n key t)
    (hturn : Turn t t') : Progress s n key t' := by
  rcases hP with ⟨h, hs, hopen, hnode, hrequest, hanswers, hheld⟩ |
    ⟨response, hexpected, htold, hdone⟩
  · cases hturn with
    | @goesOn h₁ h' hs₁ hs' _ hopen' hnode' hrequest' hanswers' hheld' =>
        obtain rfl : h = h₁ := List.singleton_inj.1 (hs.symm.trans hs₁)
        refine .inl ⟨h', hs', hopen', hnode'.trans hnode, hrequest'.trans hrequest,
          hanswers'.trans hanswers, ?_⟩
        exact (hheld' (isPut_of_get hrequest) key).trans hheld
    | @answers h₁ response hs₁ _ htold' hdone hget hput =>
        obtain rfl : h = h₁ := List.singleton_inj.1 (hs.symm.trans hs₁)
        have hexpected := hget (isPut_of_get hrequest)
        rw [hnode, hrequest] at hexpected htold'
        rw [hanswers] at htold'
        exact .inr ⟨response, hexpected.of_same hanswers hheld, htold', hdone⟩
    | @ends h₁ hs₁ hdone =>
        obtain rfl : h = h₁ := List.singleton_inj.1 (hs.symm.trans hs₁)
        rw [hopen] at hdone
        cases hdone
  · have hnone : ∀ h, t.handlers = [h] → h.unfinished = true → False := by
      intro h hs hopen
      rw [hdone h (by rw [hs]; exact List.mem_singleton_self h)] at hopen
      cases hopen
    cases hturn with
    | goesOn hs _ hopen => exact (hnone _ hs hopen).elim
    | answers hs hopen => exact (hnone _ hs hopen).elim
    | ends _ _ hs' htold' =>
        refine .inr ⟨response, hexpected, htold'.trans htold, fun h hmem => ?_⟩
        rw [hs'] at hmem
        cases hmem

/-- A get begins. -/
theorem progress_of_get {n : ν} {key : String} (hR : Recorded s) (hidle : s.handlers = [])
    (hkey : key ≠ "") (hmove : Moves M s (.get n key) s') : Progress s n key s' := by
  cases hmove with
  | refuseGet n => exact absurd rfl hkey
  | @hit _ _ o entry hget =>
      obtain ⟨-, -, hcopy, hvalid, -⟩ := LruCache.get_eq_some hget
      have hshown := hR.shown n key entry ⟨hcopy, hvalid⟩
      rw [told_of_idle hidle] at hshown
      refine .inr ⟨.value key entry.value entry.state, ⟨fun _ => ?_, fun habsent => ?_⟩, ?_,
        fun h hmem => ?_⟩
      · exact ⟨_, _, rfl, hshown⟩
      · exact absurd ⟨n, entry, hcopy, hvalid⟩ habsent
      · exact told_of_idle hidle
      · have hnone : h ∈ s.handlers := hmem
        rw [hidle] at hnone
        cases hnone
  | @miss _ _ hkey hget =>
      exact .inl ⟨_, handlers_begin hidle, rfl, rfl, rfl, rfl, .rfl⟩

/-- **What a get returns**, once it is served. -/
theorem expected_of_get {s₁ : Cluster ν β} {n : ν} {key : String} (hI : Inv M s) (hR : Recorded s)
    (hidle : s.handlers = []) (hkey : key ≠ "") (hquery : M.queryKey key = some key)
    (hbegin : CacheNode.step M s (.get n key) = some s₁)
    (hserve : Run (CacheNode.step M) Serving s₁ s') (hidle' : s'.handlers = []) :
    ∃ response, s'.answers = s.answers ++ [(n, .get key, response)] ∧
      Expected s n key response := by
  have hmove := moves_of_step hbegin
  have hok : Sequential M s (.get n key) := ⟨hidle, hquery⟩
  obtain ⟨-, -, hprogress⟩ := Run.invariant
    (I := fun t => Inv M t ∧ Recorded t ∧ Progress s n key t)
    (fun t a t' ht hserving hstep => by
      have hnext := moves_of_step hstep
      exact ⟨ht.1.step hserving.sequential.undisturbed hnext,
        ht.2.1.step ht.1 hserving.sequential hnext,
        ht.2.2.turn (turn_of_serving ht.1 ht.2.1 hserving hnext)⟩) hserve
    ⟨hI.step hok.undisturbed hmove, hR.step hI hok hmove, progress_of_get hR hidle hkey hmove⟩
  rcases hprogress with ⟨h, hs, -⟩ | ⟨response, hexpected, htold, -⟩
  · rw [hidle'] at hs
    cases hs
  · rw [told_of_idle hidle'] at htold
    exact ⟨response, htold, hexpected⟩

/-! ### Gets that have the key at hand -/

/-- Every get of a key returns the value of the last put before it. -/
def ReadsLatest (key : String) (answers : List (Answer ν β)) : Prop :=
  ∀ i n response, answers[i]? = some (n, .get key, response) →
    ∀ put ∈ lastPut key (answers.take i), ∃ state, response = .value key put.2 state

/-- Requests that do not overlap, in which every get of a key begins while the key is valid at some
node, or at the node where it was put last. -/
def AtHand (M : Setup ν) (key : String) (s : Cluster ν β) : Action ν β → Prop
  | .get n key' => Sequential M s (.get n key') ∧
      (key' = key → ∀ put ∈ lastPut key s.answers, Held s key ∨ n = put.1)
  | a => Sequential M s a

omit [DecidableEq ν] in
theorem AtHand.sequential {key : String} {a : Action ν β} (h : AtHand M key s a) :
    Sequential M s a := by
  cases a with
  | get n key' => exact h.1
  | put n key' value => exact h
  | internalRead i j => trivial
  | internalReadDone i j => trivial
  | internalInvalidate i j => trivial
  | resume i => trivial

omit [DecidableEq ν] in
theorem readsLatest_append {key : String} {answers : List (Answer ν β)} {n : ν}
    {request : Request β} (h : ReadsLatest key answers)
    (hnew : request = .get key → ∀ put ∈ lastPut key answers, ∃ state,
      response = .value key put.2 state) :
    ReadsLatest key (answers ++ [(n, request, response)]) := by
  intro i m response' hi
  rcases Nat.lt_trichotomy i answers.length with hless | rfl | hmore
  · rw [List.getElem?_append_left hless] at hi
    rw [List.take_append_of_le_length (Nat.le_of_lt hless)]
    exact h i m response' hi
  · rw [List.getElem?_append_right (Nat.le_refl _), Nat.sub_self, List.getElem?_cons_zero] at hi
    cases hi
    rw [List.take_left]
    exact hnew rfl
  · rw [List.getElem?_eq_none (by rw [List.length_append, List.length_singleton]; omega)] at hi
    cases hi

omit [DecidableEq ν] in
theorem readsLatest_of_append {key : String} {answers rest : List (Answer ν β)}
    (h : ReadsLatest key (answers ++ rest)) : ReadsLatest key answers := by
  intro i n response hi
  have hless : i < answers.length := (List.getElem?_eq_some_iff.1 hi).1
  rw [← List.getElem?_append_left hless] at hi
  have hlast := h i n response hi
  rwa [List.take_append_of_le_length (Nat.le_of_lt hless)] at hlast

/-- The values that the caches and the answers show of a key are those of its last put, and a get
that is running has the key at hand. -/
structure Fresh (key : String) (s : Cluster ν β) : Prop where
  reads : ReadsLatest key (told s)
  shown : ∀ put ∈ lastPut key (told s), lastShown key (told s) = some put.2
  atHand : ∀ h ∈ s.handlers, h.unfinished = true → h.request = .get key →
    ∀ put ∈ lastPut key (told s), Held s key ∨ h.node = put.1

omit [DecidableEq ν] in
theorem done_of_idle (hidle : s.handlers = []) : ∀ h ∈ s.handlers, h.unfinished = false := by
  intro h hmem
  rw [hidle] at hmem
  cases hmem

omit [DecidableEq ν] in
/-- An answer is told. -/
theorem Fresh.tell {key : String} {n : ν} {request : Request β} (hF : Fresh key s)
    (htold : told s' = told s ++ [(n, request, response)])
    (hdone : ∀ h ∈ s'.handlers, h.unfinished = false)
    (hreads : request = .get key → ∀ put ∈ lastPut key (told s), ∃ state,
      response = .value key put.2 state)
    (hshown : ∀ put ∈ (written key (n, request, response)).or (lastPut key (told s)),
      (CacheNode.shown key (n, request, response)).or (lastShown key (told s)) = some put.2) :
    Fresh key s' := by
  constructor
  · rw [htold]
    exact readsLatest_append hF.reads hreads
  · rw [htold, lastPut_append, lastShown_append]
    exact hshown
  · intro h hmem hopen
    rw [hdone h hmem] at hopen
    cases hopen

omit [DecidableEq ν] in
/-- A get has answered. -/
theorem Fresh.get {key key' : String} {n : ν} (hF : Fresh key s)
    (htold : told s' = told s ++ [(n, .get key', response)])
    (hdone : ∀ h ∈ s'.handlers, h.unfinished = false)
    (hresponse : key' = key → ∀ put ∈ lastPut key (told s), ∃ state,
      response = .value key put.2 state) : Fresh key s' := by
  refine hF.tell htold hdone (fun hrequest => hresponse ?_) fun put hput => ?_
  · cases hrequest
    rfl
  · rw [written_get, Option.none_or] at hput
    by_cases hkey : key' = key
    · obtain ⟨state, rfl⟩ := hresponse hkey put hput
      rw [hkey, CacheNode.shown, if_pos rfl, Option.some_or]
    · have hother : CacheNode.shown key (n, .get key', response) = none :=
        shown_of_ne (Ne.symm hkey)
      rw [hother, Option.none_or]
      exact hF.shown put hput

omit [DecidableEq ν] in
/-- A put has answered. -/
theorem Fresh.put {key key' : String} {n : ν} {value : β} (hF : Fresh key s)
    (htold : told s' = told s ++ [(n, .put key' value, .ok key')])
    (hdone : ∀ h ∈ s'.handlers, h.unfinished = false) : Fresh key s' := by
  refine hF.tell htold hdone (fun hrequest => nomatch hrequest) fun put hput => ?_
  by_cases hkey : key' = key
  · rw [hkey, written, if_pos rfl, Option.some_or] at hput
    cases hput
    rw [hkey, CacheNode.shown, if_pos rfl, Option.some_or]
  · rw [written, if_neg hkey, Option.none_or] at hput
    rw [CacheNode.shown, if_neg hkey, Option.none_or]
    exact hF.shown put hput

omit [DecidableEq ν] in
/-- A handler begins. -/
theorem Fresh.begin {key : String} (hF : Fresh key s) (hidle : s.handlers = [])
    (hopen : h.unfinished = true)
    (hatHand : h.request = .get key → ∀ put ∈ lastPut key s.answers, Held s key ∨ h.node = put.1) :
    Fresh key (s.begin h) := by
  have htold := told_begin hidle hopen
  refine ⟨by rw [htold]; exact hF.reads, by rw [htold]; exact hF.shown, ?_⟩
  intro h' hmem _ hget put hput
  rw [handlers_begin hidle, List.mem_singleton] at hmem
  subst hmem
  rw [htold, told_of_idle hidle] at hput
  exact hatHand hget put hput

/-- A get that has the key at hand returns the value of the last put. -/
theorem Expected.latest {n : ν} {key : String} (hexpected : Expected s n key response)
    (hshown : ∀ put ∈ lastPut key s.answers, lastShown key s.answers = some put.2)
    (hatHand : ∀ put ∈ lastPut key s.answers, Held s key ∨ n = put.1) :
    ∀ put ∈ lastPut key s.answers, ∃ state, response = .value key put.2 state := by
  rintro ⟨m, value⟩ hput
  by_cases hheld : Held s key
  · obtain ⟨value', state, rfl, hlast⟩ := hexpected.held hheld
    rw [hshown _ hput] at hlast
    cases hlast
    exact ⟨state, rfl⟩
  · obtain rfl : n = m := (hatHand _ hput).resolve_left hheld
    refine ⟨.E, ?_⟩
    rw [hexpected.absent hheld, lastPutAt_of_lastPut hput]
    rfl

/-- Serving a request. -/
theorem Fresh.turn {key : String} (hF : Fresh key s) (hturn : Turn s s') : Fresh key s' := by
  cases hturn with
  | @goesOn h h' hs hs' hopen hopen' hnode hrequest hanswers hheld =>
      have htold := told_of_goesOn hs hs' hanswers hopen hopen'
      refine ⟨by rw [htold]; exact hF.reads, by rw [htold]; exact hF.shown, ?_⟩
      intro h₁ hmem _ hget put hput
      rw [hs', List.mem_singleton] at hmem
      subst hmem
      rw [hrequest] at hget
      rw [htold] at hput
      rw [hnode, hheld (isPut_of_get hget) key]
      exact hF.atHand h (by rw [hs]; exact List.mem_singleton_self h) hopen hget put hput
  | @answers h response hs hopen htold hdone hget hput =>
      obtain ⟨n, request, stage⟩ := h
      have hbefore := told_of_unfinished hs hopen
      cases request with
      | get key' =>
          refine hF.get (by rw [htold, hbefore]) hdone fun hkey => ?_
          subst hkey
          have hshown := hF.shown
          have hatHand := hF.atHand _ (by rw [hs]; exact List.mem_singleton_self _) hopen rfl
          rw [hbefore] at hshown hatHand ⊢
          exact (hget rfl).latest hshown hatHand
      | put key' value =>
          rw [hput rfl] at htold
          exact hF.put (by rw [htold, hbefore]; rfl) hdone
  | ends hs hopen hs' htold =>
      refine ⟨by rw [htold]; exact hF.reads, by rw [htold]; exact hF.shown, fun h hmem => ?_⟩
      rw [hs'] at hmem
      cases hmem

theorem Fresh.step {key : String} {a : Action ν β} (hkey : key ≠ "") (hI : Inv M s)
    (hR : Recorded s) (hF : Fresh key s) (hok : AtHand M key s a) (hmove : Moves M s a s') :
    Fresh key s' := by
  have hserving : Serving s a → Fresh key s' :=
    fun hserving => hF.turn (turn_of_serving hI hR hserving hmove)
  cases hmove with
  | refuseGet n =>
      have hidle : s.handlers = [] := hok.1.1
      exact hF.get (told_answer hidle) (done_of_idle hidle) fun heq => absurd heq.symm hkey
  | refusePut n value =>
      have hidle : s.handlers = [] := hok
      refine hF.tell (told_answer hidle) (done_of_idle hidle) (fun hrequest => nomatch hrequest) ?_
      exact hF.shown
  | @hit n key' o entry hget =>
      have hidle : s.handlers = [] := hok.1.1
      obtain ⟨-, -, hcopy, hvalid, -⟩ := LruCache.get_eq_some hget
      refine hF.get (told_answer hidle) (done_of_idle hidle) fun heq put hput => ?_
      subst heq
      have hshown := hF.shown put hput
      rw [hR.shown n key' entry ⟨hcopy, hvalid⟩, Option.some.injEq] at hshown
      exact ⟨entry.state, by rw [hshown]⟩
  | @miss n key' hkey' hget =>
      refine hF.begin hok.1.1 rfl fun hrequest => ?_
      cases hrequest
      exact hok.2 rfl
  | @put n key' value hkey' => exact hF.begin hok rfl fun hrequest => nomatch hrequest
  | internalRead => exact hserving trivial
  | internalReadDone => exact hserving trivial
  | internalInvalidate => exact hserving trivial
  | found => exact hserving trivial
  | notFound => exact hserving trivial
  | unknown => exact hserving trivial
  | fetched => exact hserving trivial
  | invalidated => exact hserving trivial
  | written => exact hserving trivial
  | evicted => exact hserving trivial

omit [DecidableEq ν] in
theorem fresh_initial (key : String) : Fresh key (initial M : Cluster ν β) where
  reads := fun _ _ _ hi => nomatch hi
  shown := fun _ hput => nomatch hput
  atHand := fun _ hmem => nomatch hmem

/-- **Gets that have the key at hand return the value of the last put.** -/
theorem readsLatest_of_atHand {key : String} (hkey : key ≠ "")
    (hrun : Run (CacheNode.step M) (AtHand M key) (initial M) s) : ReadsLatest key s.answers := by
  obtain ⟨-, -, hF⟩ := Run.invariant (I := fun t => Inv M t ∧ Recorded t ∧ Fresh key t)
    (fun t a t' ht hok hstep => by
      have hmove := moves_of_step hstep
      exact ⟨ht.1.step hok.sequential.undisturbed hmove, ht.2.1.step ht.1 hok.sequential hmove,
        ht.2.2.step hkey ht.1 ht.2.1 hok hmove⟩) hrun
    ⟨inv_initial, recorded_initial, fresh_initial key⟩
  exact readsLatest_of_append hF.reads

/-- **Sequential reads.**  A get of a key is answered, and returns the value that an answer has
shown last if the key is valid at some node, and otherwise what was put last at the node of the get.
While every get of the key has it at hand, every get returns the value of the last put. -/
theorem sequentialReads (M : Setup ν) {key : String} (hkey : key ≠ "") :
    (∀ s : Cluster ν β, Run (step M) (Sequential M) (initial M) s → s.handlers = [] →
      ∀ n s₁, M.queryKey key = some key → step M s (.get n key) = some s₁ →
        ∀ t, Run (step M) Serving s₁ t →
          (∃ s', Run (step M) Serving t s' ∧ s'.handlers = []) ∧
          (t.handlers = [] → ∃ response, t.answers = s.answers ++ [(n, .get key, response)] ∧
            Expected s n key response)) ∧
    ∀ s : Cluster ν β, Run (step M) (AtHand M key) (initial M) s → ReadsLatest key s.answers := by
  refine ⟨fun s hrun hidle n s₁ hquery hbegin t hserve => ?_, fun s => readsLatest_of_atHand hkey⟩
  obtain ⟨hI, hR⟩ := recorded_run hrun
  have hbegun : Run (CacheNode.step M) (Sequential M) (initial M) t :=
    (hrun.tail (show Sequential M s (.get n key) from ⟨hidle, hquery⟩) hbegin).trans
      (hserve.mono fun _ _ => Serving.sequential)
  obtain ⟨hIt, hRt⟩ := recorded_run hbegun
  exact ⟨exists_served hIt hRt, expected_of_get hI hR hidle hkey hquery hbegin hserve⟩

end Steps

/-! ### Two nodes -/

instance Serving.decidable (s : Cluster (Fin 2) ℕ) : DecidablePred (Serving s)
  | .get _ _ | .put _ _ _ => .isFalse id
  | .internalRead _ _ | .internalReadDone _ _ | .internalInvalidate _ _ | .resume _ =>
      .isTrue trivial

instance Sequential.decidable (M : Setup (Fin 2)) (s : Cluster (Fin 2) ℕ) :
    DecidablePred (Sequential M s)
  | .get _ _ => inferInstanceAs (Decidable (_ ∧ _))
  | .put _ _ _ => inferInstanceAs (Decidable (_ = _))
  | .internalRead _ _ | .internalReadDone _ _ | .internalInvalidate _ _ | .resume _ =>
      .isTrue trivial

theorem held_iff_any {s : Cluster (Fin 2) ℕ} {key : String} :
    Held s key ↔ ∃ n, ((s.nodes n).cache.copy key).any (fun e => decide (e.state ≠ .I)) = true := by
  simp only [Held, Valid, Option.any_eq_true, decide_eq_true_eq]

instance Held.decidable (s : Cluster (Fin 2) ℕ) (key : String) : Decidable (Held s key) :=
  decidable_of_iff _ held_iff_any.symm

instance AtHand.decidable (M : Setup (Fin 2)) (key : String) (s : Cluster (Fin 2) ℕ) :
    DecidablePred (AtHand M key s)
  | .get _ _ => inferInstanceAs (Decidable (_ ∧ (_ → ∀ put ∈ _, _ ∨ _)))
  | .put _ _ _ => inferInstanceAs (Decidable (_ = _))
  | .internalRead _ _ | .internalReadDone _ _ | .internalInvalidate _ _ | .resume _ =>
      .isTrue trivial

/-- A value is put at a node, and served. -/
def putServed (n : ν) (key : String) (value : ℕ) : List (Action ν ℕ) :=
  [.put n key value, .internalInvalidate 0 0, .internalInvalidate 0 1, .resume 0, .resume 0]

/-- A get asks both nodes, and the first of them has a modified entry. -/
def readFromFirst : List (Action ν ℕ) :=
  [.internalRead 0 0, .internalRead 0 1, .internalReadDone 0 0, .resume 0]

/-- The second node gets the value from the first one. -/
theorem sequentialReads_fromFirst :
    (∃ s t : Cluster (Fin 2) ℕ, Run (step pair) (Sequential pair) (initial pair) s ∧
      Run (step pair) (Sequential pair) s t ∧
      ∃ state, t.answers = s.answers ++ [(1, .get "k", .value "k" 1 state)]) ∧
    ∃ u : Cluster (Fin 2) ℕ, Run (step pair) (AtHand pair "k") (initial pair) u ∧
      u.answers.length = 2 ∧ ReadsLatest "k" u.answers := by
  obtain ⟨s, hrun, hidle, hheld, hshown, hserved⟩ := Run.exists_of_exec (step pair)
    (Sequential pair) (initial pair) (putServed 0 "k" 1)
    (fun s => s.handlers = [] ∧ Held s "k" ∧ lastShown "k" s.answers = some 1 ∧
      ((step pair s (.get 1 "k")).bind fun s₁ => exec (step pair) Serving s₁ readFromFirst).any
        (fun t => decide (t.handlers = [])) = true) (by decide)
  obtain ⟨t, hserve, hidle'⟩ := (Option.any_eq_true _ _).1 hserved
  obtain ⟨s₁, hbegin, hexec⟩ := Option.bind_eq_some_iff.1 hserve
  have hserving : Run (step pair) Serving s₁ t := Run.of_exec readFromFirst hexec
  have hbegun : Run (step pair) (Sequential pair) s t :=
    (Run.single (show Sequential pair s (.get 1 "k") from ⟨hidle, rfl⟩) hbegin).trans
      (hserving.mono fun _ _ => Serving.sequential)
  obtain ⟨hget, hlatest⟩ := @sequentialReads (Fin 2) ℕ _ pair "k" (by decide)
  obtain ⟨response, hanswers, hexpected⟩ :=
    (hget s hrun hidle 1 s₁ rfl hbegin t hserving).2 (of_decide_eq_true hidle')
  obtain ⟨value, state, rfl, hvalue⟩ := hexpected.held hheld
  rw [hshown] at hvalue
  cases hvalue
  obtain ⟨u, hatHand, hlength⟩ := Run.exists_of_exec (step pair) (AtHand pair "k") (initial pair)
    (putServed 0 "k" 1 ++ .get 1 "k" :: readFromFirst)
    (fun u => u.answers.length = 2) (by decide)
  exact ⟨⟨s, t, hrun, hbegun, state, hanswers⟩, u, hatHand, hlength, hlatest u hatHand⟩

/-- A value is put at a node, where another key then takes its place, and is asked for at another
node. -/
def putThenEvicted (n m : ν) : List (Action ν ℕ) :=
  putServed n "k" 1 ++ putServed n "l" 2 ++
    [.resume 0, .get m "k", .internalRead 0 0, .internalRead 0 1, .resume 0, .resume 0]

/-- The second node does not find the key. -/
theorem sequentialReads_fails :
    ¬ ∀ (M : Setup (Fin 2)) (s : Cluster (Fin 2) ℕ), Run (step M) (Sequential M) (initial M) s →
      ∀ key, ReadsLatest key s.answers := by
  intro hall
  obtain ⟨s, hrun, hanswers⟩ := Run.exists_of_exec (step pair) (Sequential pair) (initial pair)
    (putThenEvicted 0 1) (fun s => s.answers = [(0, .put "k" 1, .ok "k"), (0, .put "l" 2, .ok "l"),
      (1, .get "k", .error "not_found" 404)]) (by decide)
  obtain ⟨state, hresponse⟩ := hall pair s hrun "k" 2 1 (.error "not_found" 404)
    (by rw [hanswers]; rfl) (0, 1) (by rw [hanswers]; rfl)
  cases hresponse

end CacheNode
