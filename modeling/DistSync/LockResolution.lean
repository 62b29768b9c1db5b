/-
**Resolving deadlocks.**

`_deadlock_loop` asks `find_deadlock_victim` for a request and aborts it, again and again.  One
round may not be enough: the victim can be a wait outside of the deadlock.  But a victim is always a
queued request, so the abort finds it, and every round takes one request from the queues.  When none
is left there is nothing to wait for, so the rounds come to an end.

An abort changes a queue and the stored answer of the victim, and nothing else: whoever holds a lock
keeps it, in the same mode and for the same time.

Main definitions:

* `LockManager.queued` — the requests in all queues;
* `LockManager.LockStateMachine.rounds` — **the state after some rounds of the loop**.

Main results:

* `LockManager.abortsQueued_of_victim` — what one round does;
* `LockManager.resolution_ends` — **the rounds end, and revoke nothing**.
-/

import DistSync.LockDeadlock
import DistSync.LockTables

set_option relaxedAutoImplicit false
set_option autoImplicit false

namespace LockManager

open CycleSearch LockStateMachine

/-! ### The requests in the queues -/

/-- The requests in all queues. -/
def queued (sm : LockStateMachine) : List LockRequest :=
  sm.locks.gather fun _ state => state.queue

/-- The requests in the queues of the other locks. -/
def queuedElsewhere (sm : LockStateMachine) (name : String) : List LockRequest :=
  (sm.locks.erase name).gather fun _ state => state.queue

theorem queued_perm (sm : LockStateMachine) (name : String) :
    (queued sm).Perm ((sm.lockState name).queue ++ queuedElsewhere sm name) :=
  Dict.gather_perm rfl

theorem queued_setLock (sm : LockStateMachine) (name : String) (state : LockState) :
    (queued (sm.setLock name state)).Perm (state.queue ++ queuedElsewhere sm name) :=
  Dict.gather_set

/-- A lock with a queue is in the table. -/
theorem get?_of_mem_queue {sm : LockStateMachine} {name : String} {request : LockRequest}
    (h : request ∈ (sm.lockState name).queue) :
    sm.locks.get? name = some (sm.lockState name) := by
  cases hlock : sm.locks.get? name with
  | none =>
      rw [lockState, hlock] at h
      cases h
  | some state => rw [lockState_eq_of_get? hlock]

/-- `_apply_abort` finds a request that is in a queue. -/
theorem exists_findQueued {sm : LockStateMachine} {name : String} {request : LockRequest}
    (h : request ∈ (sm.lockState name).queue) :
    ∃ name' request', sm.findQueued request.requestId =
        some (name', sm.lockState name', request') ∧
      request' ∈ (sm.lockState name').queue ∧ request'.requestId = request.requestId := by
  have hsome : (sm.findQueued request.requestId).isSome = true := by
    rw [findQueued, List.findSome?_isSome_iff]
    refine ⟨(name, sm.lockState name), Dict.get?_eq_some_iff.1 (get?_of_mem_queue h), ?_⟩
    rw [Option.isSome_map, List.find?_isSome]
    exact ⟨request, h, decide_eq_true rfl⟩
  obtain ⟨⟨name', state, request'⟩, hfound⟩ := Option.isSome_iff_exists.1 hsome
  obtain ⟨rfl, hfind⟩ := findQueued_lock hfound
  have hid : request'.requestId = request.requestId := by simpa using List.find?_some hfind
  exact ⟨name', request', hfound, List.mem_of_find?_eq_some hfind, hid⟩

/-! ### One round -/

/-- The victim is in a queue, the abort finds it and answers `aborted`, and the queues get shorter
by one request. -/
def AbortsQueued (sm : LockStateMachine) (order : IterationOrder sm.waitForGraph)
    (reason : Option String) : Prop :=
  ∃ victim lock, ∃ request ∈ (sm.lockState lock).queue,
    sm.findDeadlockVictim order = some victim ∧ request.requestId = victim ∧
    (sm.apply (.abort victim reason)).2 =
      .ok (.aborted victim request.lockName request.clientId (reason.getD "deadlock")) ∧
    (queued (sm.apply (.abort victim reason)).1).length + 1 = (queued sm).length

/-- The abort of a queued request. -/
theorem applyAbort_of_mem {sm : LockStateMachine} {name : String} {request : LockRequest}
    (h : request ∈ (sm.lockState name).queue) (reason : Option String) :
    ∃ name', ∃ request' ∈ (sm.lockState name').queue, request'.requestId = request.requestId ∧
      (sm.applyAbort request.requestId reason).2 = .ok (.aborted request.requestId
        request'.lockName request'.clientId (reason.getD "deadlock")) ∧
      (queued (sm.applyAbort request.requestId reason).1).length + 1 = (queued sm).length := by
  obtain ⟨name', request', hfound, hmem, hid⟩ := exists_findQueued h
  refine ⟨name', request', hmem, hid, by simp only [applyAbort, hfound], ?_⟩
  have hbefore := (queued_perm sm name').length_eq
  have hafter := (queued_setLock sm name' { sm.lockState name' with
    queue := (sm.lockState name').queue.eraseP (·.requestId = request.requestId) }).length_eq
  have herase := List.length_eraseP_of_mem (p := fun r : LockRequest =>
    decide (r.requestId = request.requestId)) hmem (decide_eq_true hid)
  have hpos := List.length_pos_of_mem hmem
  simp only [List.length_append] at hbefore hafter
  simp only [applyAbort, hfound]
  change (queued (sm.setLock name' _)).length + 1 = _
  omega

/-- A victim is in a queue. -/
theorem exists_queued_of_victim {sm : LockStateMachine} {order : IterationOrder sm.waitForGraph}
    {victim : String} (h : sm.findDeadlockVictim order = some victim) :
    ∃ lock, ∃ request ∈ (sm.lockState lock).queue, request.requestId = victim := by
  obtain ⟨cycle, hcycle, -⟩ := findCycle_isCycle sm.waitForGraph order
  obtain ⟨i, state, request, hi, hid, -⟩ := exists_newest_of_findDeadlockVictim hcycle h
  obtain ⟨lock, -, hmem⟩ := exists_lock_of_mem_waits (List.mem_of_getElem? hi)
  exact ⟨lock, request, hmem, hid⟩

/-- **What one round does.** -/
theorem abortsQueued_of_victim {sm : LockStateMachine} {order : IterationOrder sm.waitForGraph}
    {victim : String} (h : sm.findDeadlockVictim order = some victim) (reason : Option String) :
    AbortsQueued sm order reason := by
  obtain ⟨lock, request, hmem, rfl⟩ := exists_queued_of_victim h
  obtain ⟨lock', request', hmem', hid, hanswer, hless⟩ := applyAbort_of_mem hmem reason
  exact ⟨request.requestId, lock', request', hmem', h, hid, hanswer, hless⟩

namespace LockStateMachine

/-- One round of `_deadlock_loop`. -/
def resolve (sm : LockStateMachine) (order : IterationOrder sm.waitForGraph)
    (reason : Option String) : LockStateMachine :=
  match sm.findDeadlockVictim order with
  | none => sm
  | some victim => (sm.apply (.abort victim reason)).1

/-- **The state after `n` rounds**; `order i` is the order of iteration in round `i`. -/
def rounds (reason : Option String) : ℕ →
    (order : ℕ → (sm : LockStateMachine) → IterationOrder sm.waitForGraph) →
    LockStateMachine → LockStateMachine
  | 0, _, sm => sm
  | n + 1, order, sm => rounds reason n (fun i => order (i + 1)) (sm.resolve (order 0 sm) reason)

end LockStateMachine

theorem sameHoldings_resolve (sm : LockStateMachine) (order : IterationOrder sm.waitForGraph)
    (reason : Option String) : SameHoldings sm (sm.resolve order reason) := by
  rw [resolve]
  split
  · exact .refl sm
  · exact sameHoldings_abort sm _ reason

/-- **No round revokes a holding.** -/
theorem sameHoldings_rounds (reason : Option String) (n : ℕ)
    (order : ℕ → (sm : LockStateMachine) → IterationOrder sm.waitForGraph)
    (sm : LockStateMachine) : SameHoldings sm (sm.rounds reason n order) := by
  induction n generalizing sm order with
  | zero => exact .refl sm
  | succ n ih => exact (sameHoldings_resolve sm _ reason).trans (ih _ _)

/-- While there is a victim a round takes a request from the queues, so the rounds come to an
end. -/
theorem exists_rounds (reason : Option String)
    (order : ℕ → (sm : LockStateMachine) → IterationOrder sm.waitForGraph)
    (sm : LockStateMachine) : ∃ n ≤ (queued sm).length,
      (sm.rounds reason n order).findDeadlockVictim (order n (sm.rounds reason n order)) = none ∧
      ∀ i < n, AbortsQueued (sm.rounds reason i order) (order i (sm.rounds reason i order))
        reason := by
  induction hleft : (queued sm).length generalizing sm order with
  | zero =>
      refine ⟨0, le_rfl, ?_, fun i hi => absurd hi (Nat.not_lt_zero i)⟩
      cases hvictim : sm.findDeadlockVictim (order 0 sm) with
      | none => exact hvictim
      | some victim =>
          obtain ⟨victim', lock, request, -, -, -, -, hless⟩ :=
            abortsQueued_of_victim hvictim reason
          omega
  | succ left ih =>
      cases hvictim : sm.findDeadlockVictim (order 0 sm) with
      | none => exact ⟨0, Nat.zero_le _, hvictim, fun i hi => absurd hi (Nat.not_lt_zero i)⟩
      | some victim =>
          have hround := abortsQueued_of_victim hvictim reason
          obtain ⟨victim', lock, request, -, hvictim', -, -, hless⟩ := id hround
          obtain rfl := Option.some.inj (hvictim.symm.trans hvictim')
          have hnext : sm.resolve (order 0 sm) reason = (sm.apply (.abort victim reason)).1 := by
            rw [resolve, hvictim]
          obtain ⟨n, hn, hnone, hrounds⟩ := ih (fun i => order (i + 1))
            (sm.resolve (order 0 sm) reason) (by rw [hnext]; omega)
          refine ⟨n + 1, Nat.succ_le_succ hn, hnone, fun i hi => ?_⟩
          cases i with
          | zero => exact hround
          | succ i => exact hrounds i (Nat.lt_of_succ_lt_succ hi)

/-- **Resolving deadlocks ends, and revokes nothing.**  From a reachable state, whatever order the
sets are iterated in, there is no victim any more after at most as many rounds as there are queued
requests.  In each round before, a queued request is aborted.  In every round the same clients hold
the same locks. -/
theorem resolution_ends (commands : List Command) (reason : Option String)
    (order : ℕ → (sm : LockStateMachine) → IterationOrder sm.waitForGraph) :
    (∃ n ≤ (queued (applyAll commands)).length,
      ((applyAll commands).rounds reason n order).findDeadlockVictim
        (order n ((applyAll commands).rounds reason n order)) = none ∧
      ∀ i < n, AbortsQueued ((applyAll commands).rounds reason i order)
        (order i ((applyAll commands).rounds reason i order)) reason) ∧
    ∀ i, SameHoldings (applyAll commands) ((applyAll commands).rounds reason i order) :=
  ⟨exists_rounds reason order _, fun i => sameHoldings_rounds reason i order _⟩

end LockManager
