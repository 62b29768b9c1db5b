/-
**Commands that raise.**

`ttl_ms` comes from the body of a request, and nobody looks at it before `_grant_request` divides
it by 1000.  When it is not a number, or an integer beyond the range of floats, this raises, and at
that point the client has been entered among the holders already.  In `_apply_acquire` the lock is
then held without an expiry, without an answer and without an entry in the set of the client.  In
`_apply_release` the old holder is gone and the requests have been taken from the queue, those
behind the bad one as well, so that they are stored as waiting and wait nowhere.

A command that raises leaves the tables as they were in one case only: a reader that holds the lock
already asks for it again.

Main definitions:

* `LockManager.Failed` — the command raises;
* `LockManager.RaisesHalfway` — **it raises after it has changed something**.

Main results:

* `LockManager.failed_acquire_iff`, `LockManager.failed_release_iff` — when a command raises;
* `LockManager.failed_unchanged_iff`, `LockManager.failed_unchanged_fails` — **when a failed command
  changes nothing**.
-/

import DistSync.LockTables

set_option relaxedAutoImplicit false
set_option autoImplicit false

/-- Setting a key to the value that it has changes nothing. -/
theorem Dict.set_eq_self {κ α : Type*} [DecidableEq κ] {d : Dict κ α} {k : κ} {v : α}
    (h : d.get? k = some v) : d.set k v = d := by
  have hentries : ∀ l : List (κ × α), Dict.lookupEntry k l = some v → Dict.setEntry k v l = l := by
    intro l hl
    induction l with
    | nil => cases hl
    | cons e l ih =>
        obtain ⟨a, w⟩ := e
        rw [Dict.lookupEntry] at hl
        rw [Dict.setEntry]
        by_cases ha : a = k
        · rw [if_pos ha] at hl ⊢
          rw [ha, Option.some.inj hl]
        · rw [if_neg ha] at hl ⊢
          rw [ih hl]
  exact Dict.ext (hentries d.entries h)

namespace LockManager

open LockStateMachine

/-- The command raises. -/
def Failed (sm : LockStateMachine) (command : Command) : Prop :=
  ∃ e, (sm.apply command).2 = .error e

/-- **The command raises after it has changed something**: an acquire that is granted to a client
that did not hold the lock, or a release that grants a request, and the expiry cannot be
computed. -/
def RaisesHalfway (sm : LockStateMachine) : Command → Prop
  | .acquire requestId lock clientId mode ttlMs createdAt =>
      let request : LockRequest := ⟨requestId, lock, clientId, mode, createdAt, ttlMs⟩
      sm.requests.get? requestId = none ∧ canGrant (sm.lockState lock) request = true ∧
        expiry? request = none ∧ ¬ (sm.lockState lock).heldBy clientId
  | .release lock clientId => (sm.lockState lock).heldBy clientId ∧
      ∃ r ∈ (takeGranted ((sm.lockState lock).leave clientId)).1, expiry? r = none
  | _ => False

/-! ### When a command raises -/

/-- The loop of `_grant_waiting` ends when all expiries can be computed. -/
theorem grantLoop_snd (sm : LockStateMachine) (name : String) (granted : List LockRequest) :
    (sm.grantLoop name granted).2 = true ↔ ∀ r ∈ granted, expiry? r ≠ none := by
  induction granted generalizing sm with
  | nil => simp [grantLoop]
  | cons request granted ih =>
      have hcompleted := grantRequest_snd sm name request
      cases hexpiry : expiry? request with
      | none =>
          rw [hexpiry, Option.isSome_none] at hcompleted
          simp [grantLoop, hcompleted, hexpiry]
      | some expiry =>
          rw [hexpiry, Option.isSome_some] at hcompleted
          simp [grantLoop, hcompleted, hexpiry, ih]

theorem failed_acquire_iff (sm : LockStateMachine) (request : LockRequest) :
    Failed sm request.acquire ↔ sm.requests.get? request.requestId = none ∧
      canGrant (sm.lockState request.lockName) request = true ∧ expiry? request = none := by
  change (∃ e, (sm.applyAcquire request).2 = .error e) ↔ _
  have hcompleted := grantRequest_snd { sm with
    locks := sm.locks.setdefault request.lockName ∅ } request.lockName request
  simp only [applyAcquire, lockState_setdefault]
  cases hnew : sm.requests.get? request.requestId with
  | some result => simp
  | none =>
      cases hgrant : canGrant (sm.lockState request.lockName) request with
      | false => simp
      | true =>
          cases hexpiry : expiry? request with
          | none => simpa [hcompleted, hexpiry] using ⟨request.ttlMs.floatError⟩
          | some expiry => simp [hcompleted, hexpiry]

theorem failed_release_iff (sm : LockStateMachine) (lock clientId : String) :
    Failed sm (.release lock clientId) ↔ RaisesHalfway sm (.release lock clientId) := by
  change (∃ e, (sm.applyRelease lock clientId).2 = .error e) ↔ _ ∧ _
  by_cases hheld : (sm.lockState lock).heldBy clientId
  · have hcompleted := grantLoop_snd ((sm.vacate lock clientId).setLock lock
      { (sm.lockState lock).leave clientId with
        queue := (takeGranted ((sm.lockState lock).leave clientId)).2 }) lock
      (takeGranted ((sm.lockState lock).leave clientId)).1
    rw [applyRelease_eq hheld, and_iff_right hheld]
    simp only [grantWaiting, lockState_vacate]
    split
    · next htrue =>
        have hall := hcompleted.1 htrue
        simpa using hall
    · next hfalse =>
        rw [hcompleted] at hfalse
        push Not at hfalse
        exact iff_of_true ⟨_, rfl⟩ hfalse
  · rw [applyRelease_eq_of_not_heldBy hheld, iff_false_right fun h => hheld h.1]
    rintro ⟨e, he⟩
    cases he

/-! ### What it leaves behind -/

/-- An acquire that raises has entered the client among the holders. -/
theorem heldBy_of_failed_acquire {sm : LockStateMachine} {request : LockRequest}
    (h : Failed sm request.acquire) :
    ((sm.apply request.acquire).1.lockState request.lockName).heldBy request.clientId := by
  obtain ⟨hnew, hgrant, -⟩ := (failed_acquire_iff sm request).1 h
  exact holds_applyAcquire hnew hgrant

/-- A release that raises has shortened the queue. -/
theorem length_queue_of_failed_release {sm : LockStateMachine} {lock clientId : String}
    (h : Failed sm (.release lock clientId)) :
    ((sm.apply (.release lock clientId)).1.lockState lock).queue.length <
      (sm.lockState lock).queue.length := by
  obtain ⟨hheld, r, hr, -⟩ := (failed_release_iff sm lock clientId).1 h
  have hqueue := congrArg List.length (takeGranted_append ((sm.lockState lock).leave clientId))
  have hpos := List.length_pos_of_mem hr
  rw [apply, lockState_applyRelease, if_pos ⟨rfl, hheld⟩, LockState.regrant, holdAll_queue]
  simp only [LockState.leave, List.length_append] at hqueue hpos ⊢
  omega

/-- A reader that holds the lock already leaves everything as it was. -/
theorem applyAcquire_of_heldBy {sm : LockStateMachine} {request : LockRequest}
    (hexclusion : Exclusion (sm.lockState request.lockName).holders)
    (hfailed : Failed sm request.acquire)
    (hheld : (sm.lockState request.lockName).heldBy request.clientId) :
    (sm.applyAcquire request).1 = sm := by
  obtain ⟨hnew, hgrant, hexpiry⟩ := (failed_acquire_iff sm request).1 hfailed
  obtain ⟨mode, hmode⟩ := Option.isSome_iff_exists.1 hheld
  obtain ⟨held, hrepresents⟩ := hexclusion
  -- only a reader is granted a lock that it holds
  have hsame : mode = request.mode := by
    rcases canGrant_cases hgrant with ⟨-, hfree⟩ | ⟨hshared, hwriter, -⟩
    · rw [hfree request.clientId] at hmode
      cases hmode
    · rcases hrepresents.mode hmode with rfl | rfl
      · exact hshared.symm
      · exact absurd hmode (hwriter request.clientId)
  have hlock : sm.locks.get? request.lockName = some (sm.lockState request.lockName) := by
    cases hlock : sm.locks.get? request.lockName with
    | none =>
        rw [lockState, hlock] at hmode
        cases hmode
    | some state => rw [lockState_eq_of_get? hlock]
  have hdefault : sm.locks.setdefault request.lockName ∅ = sm.locks := by
    rw [Dict.setdefault, hlock, Option.isSome_some, if_pos rfl]
  simp only [applyAcquire, hnew, hdefault, hgrant, if_true,
    grantRequest_of_expiry?_eq_none sm request.lockName hexpiry]
  rw [← hsame, Dict.set_eq_self hmode]
  exact congrArg (fun locks => ({ sm with locks := locks } : LockStateMachine))
    (Dict.set_eq_self hlock)

/-- **When a failed command changes nothing.**  In every reachable state, a command leaves the
tables as they were if it raises, if and only if it does not raise halfway. -/
theorem failed_unchanged_iff (commands : List Command) (command : Command) :
    (Failed (applyAll commands) command →
      ((applyAll commands).apply command).1 = applyAll commands) ↔
    ¬ RaisesHalfway (applyAll commands) command := by
  cases command with
  | acquire requestId lock clientId mode ttlMs createdAt =>
      let request : LockRequest := ⟨requestId, lock, clientId, mode, createdAt, ttlMs⟩
      constructor
      · rintro hunchanged ⟨hnew, hgrant, hexpiry, hfree⟩
        have hfailed := (failed_acquire_iff (applyAll commands) request).2 ⟨hnew, hgrant, hexpiry⟩
        have hheld := heldBy_of_failed_acquire hfailed
        have hsame : ((applyAll commands).apply request.acquire).1 = applyAll commands :=
          hunchanged hfailed
        rw [hsame] at hheld
        exact hfree hheld
      · intro hhalfway hfailed
        obtain ⟨hnew, hgrant, hexpiry⟩ := (failed_acquire_iff (applyAll commands) request).1 hfailed
        have hheld : ((applyAll commands).lockState lock).heldBy clientId := by
          by_contra hfree
          exact hhalfway ⟨hnew, hgrant, hexpiry, hfree⟩
        exact @applyAcquire_of_heldBy _ request (exclusion_applyAll commands lock) hfailed hheld
  | release lock clientId =>
      rw [← failed_release_iff]
      constructor
      · intro hunchanged hfailed
        have hless := length_queue_of_failed_release hfailed
        rw [hunchanged hfailed] at hless
        exact absurd hless (lt_irrefl _)
      · intro hnot hfailed
        exact absurd hfailed hnot
  | abort requestId reason =>
      refine iff_of_true ?_ id
      rintro ⟨e, he⟩
      simp only [apply, applyAbort] at he
      split at he <;> cases he
  | other op =>
      refine iff_of_true ?_ id
      rintro ⟨e, he⟩
      cases he

/-- Alice asks for a free lock, with a `ttl_ms` that is not a number: she holds it afterwards. -/
theorem failed_unchanged_fails :
    ¬ ∀ (commands : List Command) (command : Command), Failed (applyAll commands) command →
      ((applyAll commands).apply command).1 = applyAll commands := by
  intro hall
  have hsame := hall [] (.acquire "r1" "db" "alice" .exclusive (.str "soon") 0) ⟨.typeError, rfl⟩
  have hlocks := congrArg (fun sm => sm.locks.keys) hsame
  exact absurd hlocks (by decide)

end LockManager
