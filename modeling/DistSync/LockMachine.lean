/-
**The lock state machine.**

This module is a transcription of `LockStateMachine` in `nodes/lock_manager.py`: the tables of
locks, requests and holdings, and the three commands that change them.  Applying a command is a
function of the state, but not always a total one: the expiry of a holding is computed from a
`ttl_ms` that nobody has checked, and Python raises `TypeError` when it is not a number and
`OverflowError` when it is an integer beyond the range of floats.  The state is changed step by step
before that point, so a command that raises leaves a state behind as well;
`LockManager.LockStateMachine.apply` returns both.

What a command does to one lock is summed up in `LockManager.LockMoves`.  Invariants of locks are
proved from it, without looking at the commands again.

Main definitions:

* `LockManager.Json` — the values that clients may send for `mode` and `ttl_ms`;
* `LockManager.LockState`, `LockManager.LockStateMachine` — the state;
* `LockManager.canGrant`, `LockManager.takeGranted` — the two decisions to grant;
* `LockManager.LockStateMachine.apply` — **applying a command**;
* `LockManager.applyAll` — the state after a sequence of commands.

Main results:

* `LockManager.apply_lockMoves` — **what a command can do to a lock**.
-/

import DistSync.Dict
import Mathlib.Data.Finset.Erase
import Mathlib.Data.Finset.Insert
import Mathlib.Algebra.Ring.Rat

set_option relaxedAutoImplicit false
set_option autoImplicit false

namespace LockManager

/-! ### Values from requests -/

/-- A JSON value; a number is an integer or a finite float. -/
inductive Json
  | null
  | bool (value : Bool)
  | num (value : ℚ)
  | str (value : String)
  | arr (values : List Json)
  | obj (fields : List (String × Json))

namespace Json

/-- Equality with a string. -/
def isStr (s : String) : Json → Bool
  | .str value => decide (value = s)
  | _ => false

/-- The truth value of the decoded object. -/
def truthy : Json → Bool
  | .null => false
  | .bool value => value
  | .num value => decide (value ≠ 0)
  | .str value => decide (value ≠ "")
  | .arr values => !values.isEmpty
  | .obj fields => !fields.isEmpty

/-- The bound from which an integer does not round to a float, `2 ^ 1024 - 2 ^ 970`: the greatest
float and half of its last place. -/
def floatLimit : ℚ := (((2 ^ 54 - 1) * (2 ^ 97) ^ 10 : ℕ) : ℚ)

/-- The number that float arithmetic sees; for other values, and for an integer that does not round
to a float, it raises. -/
def float? : Json → Option ℚ
  | .bool value => some (if value = true then 1 else 0)
  | .num value => if -floatLimit < value ∧ value < floatLimit then some value else none
  | _ => none

@[simp] theorem isStr_iff {s : String} {j : Json} : j.isStr s = true ↔ j = .str s := by
  cases j <;> simp [isStr]

end Json

/-- The mode of a request that wants the lock for itself. -/
def Json.exclusive : Json := .str "exclusive"

/-- The mode of a request that shares the lock with others of this mode. -/
def Json.shared : Json := .str "shared"

/-! ### The state -/

/-- A request for a lock. -/
structure LockRequest where
  requestId : String
  lockName : String
  clientId : String
  mode : Json
  createdAt : ℚ
  ttlMs : Json

/-- The state of one lock: the modes of its holders, the times their holdings expire, and the
requests that wait. -/
structure LockState where
  holders : Dict String Json
  holderExpiry : Dict String (Option ℚ)
  queue : List LockRequest

/-- A lock that nobody holds or waits for. -/
instance : EmptyCollection LockState := ⟨⟨∅, ∅, []⟩⟩

/-- What a stored answer says about a request. -/
structure RequestInfo where
  requestId : String
  lock : String
  clientId : String
  mode : Json

/-- The dictionary that is stored for a request. -/
def LockRequest.info (request : LockRequest) : RequestInfo :=
  ⟨request.requestId, request.lockName, request.clientId, request.mode⟩

/-- The answers of the state machine, by their `status`. -/
inductive Result
  | granted (info : RequestInfo)
  | waiting (info : RequestInfo)
  | aborted (requestId lock clientId reason : String)
  | released (lock clientId : String)
  | notHeld (lock clientId : String)
  | notFound (requestId : String)
  | error (error : String)

/-- The tables of the state machine. -/
structure LockStateMachine where
  locks : Dict String LockState
  requests : Dict String Result
  heldByClient : Dict String (Finset String)

instance : EmptyCollection LockStateMachine := ⟨⟨∅, ∅, ∅⟩⟩

/-- A command of the replicated log. -/
inductive Command
  | acquire (requestId lock clientId : String) (mode ttlMs : Json) (createdAt : ℚ)
  | release (lock clientId : String)
  | abort (requestId : String) (reason : Option String)
  | other (op : String)

/-- The exceptions of `apply`. -/
inductive PyError
  | typeError
  | overflowError
deriving DecidableEq, Repr

/-- The exception of the arithmetic on a value without a float. -/
def Json.floatError : Json → PyError
  | .num _ => .overflowError
  | _ => .typeError

/-! ### Decisions about one lock -/

/-- `_can_grant`. -/
def canGrant (state : LockState) (request : LockRequest) : Bool :=
  if state.holders.isEmpty = true ∧ request.mode.isStr "exclusive" = true then true
  else if state.holders.isEmpty = true ∧ request.mode.isStr "shared" = true then
    !state.queue.any (·.mode.isStr "exclusive")
  else if request.mode.isStr "exclusive" = true then false
  else if request.mode.isStr "shared" = true then
    if state.holders.values.any (·.isStr "exclusive") = true then false
    else if state.queue.any (·.mode.isStr "exclusive") = true then false
    else true
  else false

/-- The time a holding expires: `none` inside for one without a time to live, `none` outside when
the arithmetic raises. -/
def expiry? (request : LockRequest) : Option (Option ℚ) :=
  if request.ttlMs.truthy = true then
    request.ttlMs.float?.map fun ttl => some (request.createdAt + ttl / 1000)
  else some none

/-- What `_grant_request` does to the lock.  The holder is entered before the expiry is computed;
the second component is `false` when that raises. -/
def LockState.hold (state : LockState) (request : LockRequest) : LockState × Bool :=
  let held := { state with holders := state.holders.set request.clientId request.mode }
  match expiry? request with
  | none => (held, false)
  | some expiry =>
      ({ held with holderExpiry := held.holderExpiry.set request.clientId expiry }, true)

/-- The exception of a loop that grants requests: that of the first one without an expiry. -/
def raised : List LockRequest → PyError
  | [] => .typeError
  | request :: granted =>
      if (expiry? request).isNone = true then request.ttlMs.floatError else raised granted

/-- The requests that `_grant_waiting` takes from the head of the queue, and the rest. -/
def takeGranted (state : LockState) : List LockRequest × List LockRequest :=
  match state.queue with
  | [] => ([], [])
  | first :: rest =>
      if state.holders.isEmpty = true then
        if first.mode.isStr "exclusive" = true then ([first], rest)
        else state.queue.span (·.mode.isStr "shared")
      else if state.holders.values.all (·.isStr "shared") = true then
        state.queue.span (·.mode.isStr "shared")
      else ([], state.queue)

/-! ### Commands -/

namespace LockStateMachine

/-- The state of a lock; a lock that was never asked for is free. -/
def lockState (sm : LockStateMachine) (name : String) : LockState :=
  (sm.locks.get? name).getD ∅

/-- The state machine with the state of one lock replaced. -/
def setLock (sm : LockStateMachine) (name : String) (state : LockState) : LockStateMachine :=
  { sm with locks := sm.locks.set name state }

/-- `_grant_request`, for the lock `name`; `false` when it raises. -/
def grantRequest (sm : LockStateMachine) (name : String) (request : LockRequest) :
    LockStateMachine × Bool :=
  let (state, completed) := (sm.lockState name).hold request
  let sm := sm.setLock name state
  if completed = true then
    let held := (sm.heldByClient.get? request.clientId).getD ∅
    ({ sm with
      heldByClient := sm.heldByClient.set request.clientId (insert request.lockName held) }, true)
  else (sm, false)

/-- The last loop of `_grant_waiting`; `false` when it raises. -/
def grantLoop (sm : LockStateMachine) (name : String) :
    List LockRequest → LockStateMachine × Bool
  | [] => (sm, true)
  | request :: granted =>
      let (sm, completed) := sm.grantRequest name request
      if completed = true then
        grantLoop { sm with requests := sm.requests.set request.requestId (.granted request.info) }
          name granted
      else (sm, false)

/-- `_grant_waiting`. -/
def grantWaiting (sm : LockStateMachine) (name : String) : LockStateMachine × Bool :=
  let state := sm.lockState name
  let (granted, rest) := takeGranted state
  grantLoop (sm.setLock name { state with queue := rest }) name granted

/-- `_apply_acquire`. -/
def applyAcquire (sm : LockStateMachine) (request : LockRequest) :
    LockStateMachine × Except PyError Result :=
  match sm.requests.get? request.requestId with
  -- a request that was seen before gets the stored answer
  | some result => (sm, .ok result)
  | none =>
      let name := request.lockName
      let sm := { sm with locks := sm.locks.setdefault name ∅ }
      let state := sm.lockState name
      if canGrant state request = true then
        let (sm, completed) := sm.grantRequest name request
        if completed = true then
          let result := .granted request.info
          ({ sm with requests := sm.requests.set request.requestId result }, .ok result)
        else (sm, .error request.ttlMs.floatError)
      else
        let result := .waiting request.info
        let sm := sm.setLock name { state with queue := state.queue ++ [request] }
        ({ sm with requests := sm.requests.set request.requestId result }, .ok result)

/-- `_apply_release`. -/
def applyRelease (sm : LockStateMachine) (lock clientId : String) :
    LockStateMachine × Except PyError Result :=
  match sm.locks.get? lock with
  | none => (sm, .ok (.notHeld lock clientId))
  | some state =>
      if (state.holders.get? clientId).isSome then
        let state := { state with
          holders := state.holders.erase clientId
          holderExpiry := state.holderExpiry.erase clientId }
        let heldByClient := match sm.heldByClient.get? clientId with
          | none => sm.heldByClient
          | some held => sm.heldByClient.set clientId (held.erase lock)
        let sm := { sm.setLock lock state with heldByClient := heldByClient }
        let (sm, completed) := sm.grantWaiting lock
        (sm, if completed = true then .ok (.released lock clientId)
          else .error (raised (takeGranted state).1))
      else (sm, .ok (.notHeld lock clientId))

/-- The search of `_apply_abort`: the first queued request with the given id, going through the
locks in order, with the name and the state of its lock. -/
def findQueued (sm : LockStateMachine) (requestId : String) :
    Option (String × LockState × LockRequest) :=
  sm.locks.entries.findSome? fun (name, state) =>
    (state.queue.find? (·.requestId = requestId)).map fun request => (name, state, request)

/-- `_apply_abort`. -/
def applyAbort (sm : LockStateMachine) (requestId : String) (reason : Option String) :
    LockStateMachine × Except PyError Result :=
  match sm.findQueued requestId with
  | none => (sm, .ok (.notFound requestId))
  | some (name, state, request) =>
      let sm := sm.setLock name { state with
        queue := state.queue.eraseP (·.requestId = requestId) }
      let result := .aborted requestId request.lockName request.clientId
        (reason.getD "deadlock")
      ({ sm with requests := sm.requests.set requestId result }, .ok result)

/-- **`apply`**: the state after a command, and its answer or the exception it raises. -/
def apply (sm : LockStateMachine) : Command → LockStateMachine × Except PyError Result
  | .acquire requestId lock clientId mode ttlMs createdAt =>
      sm.applyAcquire ⟨requestId, lock, clientId, mode, createdAt, ttlMs⟩
  | .release lock clientId => sm.applyRelease lock clientId
  | .abort requestId reason => sm.applyAbort requestId reason
  | .other _ => (sm, .ok (.error "unknown_op"))

end LockStateMachine

/-- The state after a sequence of commands. -/
def applyAll (commands : List Command) : LockStateMachine :=
  commands.foldl (fun sm command => (sm.apply command).1) ∅

@[simp] theorem applyAll_snoc (commands : List Command) (command : Command) :
    applyAll (commands ++ [command]) = ((applyAll commands).apply command).1 := by
  simp [applyAll]

/-! ### What a command does to a lock -/

/-- A lock after a list of requests was granted, up to the first one that raises. -/
def LockState.holdAll (state : LockState) : List LockRequest → LockState
  | [] => state
  | request :: granted =>
      match state.hold request with
      | (state, true) => holdAll state granted
      | (state, false) => state

theorem LockState.holdAll_of_hold {state : LockState} {request : LockRequest}
    {granted : List LockRequest} (h : (state.hold request).2 = true) :
    state.holdAll (request :: granted) = (state.hold request).1.holdAll granted := by
  rw [holdAll]
  split
  · next heq => rw [heq]
  · next heq => rw [heq] at h; cases h

theorem LockState.holdAll_of_raise {state : LockState} {request : LockRequest}
    {granted : List LockRequest} (h : (state.hold request).2 = false) :
    state.holdAll (request :: granted) = (state.hold request).1 := by
  rw [holdAll]
  split
  · next heq => rw [heq] at h; cases h
  · next heq => rw [heq]

/-- A lock after `_grant_waiting`. -/
def LockState.regrant (state : LockState) : LockState :=
  LockState.holdAll { state with queue := (takeGranted state).2 } (takeGranted state).1

/-- A lock without one of its holders. -/
def LockState.leave (state : LockState) (clientId : String) : LockState :=
  { state with
    holders := state.holders.erase clientId
    holderExpiry := state.holderExpiry.erase clientId }

/-- The ways in which a command can change the lock `name`. -/
inductive LockMoves (sm : LockStateMachine) (name : String) : Command → LockState → Prop
  | same {command : Command} : LockMoves sm name command (sm.lockState name)
  | grant (request : LockRequest) (hname : request.lockName = name)
      (hnew : sm.requests.get? request.requestId = none)
      (hgrant : canGrant (sm.lockState name) request = true) :
      LockMoves sm name (.acquire request.requestId name request.clientId request.mode
        request.ttlMs request.createdAt) ((sm.lockState name).hold request).1
  | wait (request : LockRequest) (hname : request.lockName = name)
      (hnew : sm.requests.get? request.requestId = none)
      (hgrant : canGrant (sm.lockState name) request = false) :
      LockMoves sm name (.acquire request.requestId name request.clientId request.mode
        request.ttlMs request.createdAt)
        { sm.lockState name with queue := (sm.lockState name).queue ++ [request] }
  | release {clientId : String}
      (hheld : ((sm.lockState name).holders.get? clientId).isSome = true) :
      LockMoves sm name (.release name clientId) ((sm.lockState name).leave clientId).regrant
  | abort {requestId : String} {reason : Option String} {request : LockRequest}
      (hfound : sm.findQueued requestId = some (name, sm.lockState name, request)) :
      LockMoves sm name (.abort requestId reason)
        { sm.lockState name with
          queue := (sm.lockState name).queue.eraseP (·.requestId = requestId) }

namespace LockStateMachine

variable {sm : LockStateMachine} {name name' : String}

@[simp] theorem lockState_withRequests {requests : Dict String Result} :
    ({ sm with requests := requests } : LockStateMachine).lockState name = sm.lockState name := rfl

@[simp] theorem lockState_withHeld {held : Dict String (Finset String)} :
    ({ sm with heldByClient := held } : LockStateMachine).lockState name = sm.lockState name := rfl

theorem lockState_setLock {state : LockState} :
    (sm.setLock name state).lockState name' =
      if name' = name then state else sm.lockState name' := by
  simp only [lockState, setLock, Dict.get?_set]
  split <;> rfl

@[simp] theorem lockState_setLock_self {state : LockState} :
    (sm.setLock name state).lockState name = state := by
  rw [lockState_setLock, if_pos rfl]

theorem lockState_setLock_of_ne {state : LockState} (h : name' ≠ name) :
    (sm.setLock name state).lockState name' = sm.lockState name' := by
  rw [lockState_setLock, if_neg h]

theorem lockState_eq_of_get? {state : LockState} (h : sm.locks.get? name = some state) :
    sm.lockState name = state := by
  rw [lockState, h, Option.getD_some]

/-- Making an entry for a lock does not change its state. -/
theorem lockState_setdefault :
    ({ sm with locks := sm.locks.setdefault name ∅ } : LockStateMachine).lockState name' =
      sm.lockState name' := by
  simp only [lockState, Dict.get?_setdefault]
  split
  · next h => rw [h, Option.getD_some]
  · rfl

/-! ### Granting, lock by lock -/

theorem grantRequest_fst (sm : LockStateMachine) (name : String) (request : LockRequest) :
    (sm.grantRequest name request).1.locks =
      (sm.setLock name ((sm.lockState name).hold request).1).locks ∧
    (sm.grantRequest name request).1.requests = sm.requests ∧
    (sm.grantRequest name request).2 = ((sm.lockState name).hold request).2 := by
  simp only [grantRequest]
  cases h : ((sm.lockState name).hold request).2 <;> simp [setLock]

theorem lockState_grantRequest (sm : LockStateMachine) (name name' : String)
    (request : LockRequest) :
    (sm.grantRequest name request).1.lockState name' =
      if name' = name then ((sm.lockState name).hold request).1 else sm.lockState name' := by
  have hlocks := (grantRequest_fst sm name request).1
  rw [← lockState_setLock]
  simp only [lockState, hlocks]

/-- The loop of `_grant_waiting` changes one lock, as `holdAll` does. -/
theorem lockState_grantLoop (granted : List LockRequest) :
    (sm.grantLoop name granted).1.lockState name' =
      if name' = name then (sm.lockState name).holdAll granted else sm.lockState name' := by
  induction granted generalizing sm with
  | nil =>
      simp only [grantLoop, LockState.holdAll]
      split
      · next h => rw [h]
      · rfl
  | cons request granted ih =>
      have hstate := fun name' => lockState_grantRequest sm name name' request
      have hcompleted := (grantRequest_fst sm name request).2.2
      cases h : ((sm.lockState name).hold request).2 with
      | false =>
          rw [h] at hcompleted
          simpa [grantLoop, hcompleted, LockState.holdAll_of_raise h] using hstate name'
      | true =>
          rw [h] at hcompleted
          simp only [grantLoop, hcompleted, LockState.holdAll_of_hold h, if_true]
          rw [ih]
          simp only [lockState] at hstate ⊢
          rw [hstate, hstate]
          split <;> simp

theorem lockState_grantWaiting :
    (sm.grantWaiting name).1.lockState name' =
      if name' = name then (sm.lockState name).regrant else sm.lockState name' := by
  simp only [grantWaiting]
  rw [lockState_grantLoop, lockState_setLock_self]
  split
  · rfl
  · next h => rw [lockState_setLock_of_ne h]

/-! ### The commands, lock by lock -/

theorem lockState_applyAcquire {request : LockRequest}
    (hnew : sm.requests.get? request.requestId = none) :
    (sm.applyAcquire request).1.lockState name =
      if name = request.lockName then
        if canGrant (sm.lockState name) request = true then
          ((sm.lockState name).hold request).1
        else { sm.lockState name with queue := (sm.lockState name).queue ++ [request] }
      else sm.lockState name := by
  simp only [applyAcquire, hnew, lockState_setdefault]
  by_cases hgrant : canGrant (sm.lockState request.lockName) request = true
  · rw [if_pos hgrant]
    have hstate := lockState_grantRequest { sm with
      locks := sm.locks.setdefault request.lockName ∅ } request.lockName name request
    simp only [lockState_setdefault] at hstate
    have hspec : (if name = request.lockName then
        if canGrant (sm.lockState name) request = true then
          ((sm.lockState name).hold request).1
        else { sm.lockState name with queue := (sm.lockState name).queue ++ [request] }
      else sm.lockState name) =
        if name = request.lockName then ((sm.lockState request.lockName).hold request).1
        else sm.lockState name := by
      split
      · next h => rw [h, if_pos hgrant]
      · rfl
    rw [hspec, ← hstate]
    split <;> rfl
  · rw [if_neg hgrant]
    simp only [lockState_withRequests, lockState_setLock, lockState_setdefault]
    split
    · next h => rw [h, if_neg hgrant]
    · rfl

/-- The answer to a new request, and what is stored for it. -/
theorem applyAcquire_new (request : LockRequest)
    (hnew : sm.requests.get? request.requestId = none) :
    (canGrant (sm.lockState request.lockName) request = true ∧
      (sm.applyAcquire request).2 = .ok (.granted request.info) ∧
      (sm.applyAcquire request).1.requests =
        sm.requests.set request.requestId (.granted request.info)) ∨
    (canGrant (sm.lockState request.lockName) request = true ∧
      (sm.applyAcquire request).2 = .error request.ttlMs.floatError ∧
      (sm.applyAcquire request).1.requests = sm.requests) ∨
    (canGrant (sm.lockState request.lockName) request = false ∧
      (sm.applyAcquire request).2 = .ok (.waiting request.info) ∧
      (sm.applyAcquire request).1.requests =
        sm.requests.set request.requestId (.waiting request.info)) := by
  simp only [applyAcquire, hnew, lockState_setdefault]
  cases hgrant : canGrant (sm.lockState request.lockName) request with
  | false => simp [setLock]
  | true =>
      have hrequests := (grantRequest_fst { sm with
        locks := sm.locks.setdefault request.lockName ∅ } request.lockName request).2.1
      cases hcompleted : (grantRequest { sm with
        locks := sm.locks.setdefault request.lockName ∅ } request.lockName request).2 with
      | false => simp [hrequests]
      | true => simp [hrequests]

theorem lockState_applyRelease (lock clientId : String) :
    (sm.applyRelease lock clientId).1.lockState name =
      if name = lock ∧ ((sm.lockState name).holders.get? clientId).isSome = true then
        ((sm.lockState name).leave clientId).regrant
      else sm.lockState name := by
  simp only [applyRelease]
  cases hlock : sm.locks.get? lock with
  | none =>
      have hfree : sm.lockState lock = ∅ := by rw [lockState, hlock, Option.getD_none]
      rw [if_neg]
      rintro ⟨rfl, h⟩
      rw [hfree] at h
      cases h
  | some state =>
      have hstate := lockState_eq_of_get? hlock
      subst hstate
      by_cases hheld : ((sm.lockState lock).holders.get? clientId).isSome = true
      · simp only [hheld, if_true, lockState_grantWaiting, lockState_withHeld,
          lockState_setLock_self]
        by_cases h : name = lock
        · rw [if_pos h, if_pos ⟨h, h ▸ hheld⟩, h, LockState.leave]
        · rw [if_neg h, if_neg (fun h' => h h'.1), lockState_setLock_of_ne h]
      · have hnot : ¬ (name = lock ∧ ((sm.lockState name).holders.get? clientId).isSome = true) := by
          rintro ⟨rfl, h⟩
          exact hheld h
        rw [if_neg hnot]
        simp only [hheld]
        rfl

theorem findQueued_lock {requestId : String} {state : LockState} {request : LockRequest}
    (h : sm.findQueued requestId = some (name, state, request)) :
    sm.lockState name = state ∧ state.queue.find? (·.requestId = requestId) = some request := by
  obtain ⟨⟨name', state'⟩, hmem, hfind⟩ := List.exists_of_findSome?_eq_some h
  simp only [Option.map_eq_some_iff] at hfind
  obtain ⟨request', hfind, heq⟩ := hfind
  cases heq
  exact ⟨lockState_eq_of_get? (Dict.get?_eq_some_iff.2 hmem), hfind⟩

/-- **What a command can do to a lock.** -/
theorem apply_lockMoves (sm : LockStateMachine) (name : String) (command : Command) :
    LockMoves sm name command ((sm.apply command).1.lockState name) := by
  cases command with
  | acquire requestId lock clientId mode ttlMs createdAt =>
      cases hnew : sm.requests.get? requestId with
      | some result =>
          simp only [apply, applyAcquire, hnew]
          exact .same
      | none =>
          rw [apply, lockState_applyAcquire hnew]
          split
          · next h =>
              subst h
              split
              · next hgrant =>
                  exact .grant ⟨requestId, name, clientId, mode, createdAt, ttlMs⟩ rfl hnew hgrant
              · next hgrant =>
                  exact .wait ⟨requestId, name, clientId, mode, createdAt, ttlMs⟩ rfl hnew
                    (Bool.eq_false_iff.2 hgrant)
          · exact .same
  | release lock clientId =>
      rw [apply, lockState_applyRelease]
      split
      · next h =>
          obtain ⟨rfl, hheld⟩ := h
          exact .release hheld
      · exact .same
  | abort requestId reason =>
      simp only [apply, applyAbort]
      split
      · exact .same
      · next name' state request hfound =>
          obtain ⟨rfl, -⟩ := findQueued_lock hfound
          rw [lockState_withRequests, lockState_setLock]
          split
          · next h =>
              subst h
              exact .abort hfound
          · exact .same
  | other op => exact .same

end LockStateMachine

end LockManager
