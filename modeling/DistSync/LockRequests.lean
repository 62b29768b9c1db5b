/-
**What a granted request says about the lock.**

The state machine keeps two records of a grant: the client among the holders of the lock, and the
answer under the id of the request.  The first is erased when the client releases the lock, the
second never changes.  An acquire whose id was seen before is answered from the second.

So an answer `granted` is about the moment of the grant.  `LockManager.granted_held` says what that
means later: the client still holds the lock, unless it has been released for it in between.

Main definitions:

* `LockManager.Holds` — a client is among the holders of a lock;
* `LockManager.GrantedAt` — **the history of a grant**.

Main results:

* `LockManager.Holds.step` — only a release takes a lock away;
* `LockManager.grantedAt_applyAll` — every recorded grant was one;
* `LockManager.granted_held` — **what the answer `granted` means**.
-/

import DistSync.LockHolders

set_option relaxedAutoImplicit false
set_option autoImplicit false

namespace LockManager

open LockStateMachine

/-! ### Holders stay until they release -/

/-- The client is among the holders. -/
def LockState.heldBy (state : LockState) (client : String) : Prop :=
  (state.holders.get? client).isSome = true

/-- The client is among the holders of the lock. -/
def Holds (sm : LockStateMachine) (lock client : String) : Prop :=
  (sm.lockState lock).heldBy client

theorem heldBy_hold_self (state : LockState) (request : LockRequest) :
    (state.hold request).1.heldBy request.clientId := by
  simp [LockState.heldBy]

theorem LockState.heldBy.hold {state : LockState} {client : String} (h : state.heldBy client)
    (request : LockRequest) : (state.hold request).1.heldBy client := by
  unfold LockState.heldBy at h ⊢
  rw [hold_holders, Dict.get?_set]
  split
  · rfl
  · exact h

theorem LockState.heldBy.holdAll {state : LockState} {client : String} (h : state.heldBy client)
    (granted : List LockRequest) : (state.holdAll granted).heldBy client := by
  induction granted generalizing state with
  | nil => exact h
  | cons request granted ih =>
      cases hcompleted : (state.hold request).2 with
      | false =>
          rw [LockState.holdAll_of_raise hcompleted]
          exact h.hold request
      | true =>
          rw [LockState.holdAll_of_hold hcompleted]
          exact ih (h.hold request)

/-- The first of the granted requests is entered even when its grant raises. -/
theorem heldBy_holdAll_cons (state : LockState) (request : LockRequest)
    (granted : List LockRequest) :
    (state.holdAll (request :: granted)).heldBy request.clientId := by
  cases hcompleted : (state.hold request).2 with
  | false =>
      rw [LockState.holdAll_of_raise hcompleted]
      exact heldBy_hold_self state request
  | true =>
      rw [LockState.holdAll_of_hold hcompleted]
      exact (heldBy_hold_self state request).holdAll granted

theorem LockMoves.keeps {sm : LockStateMachine} {lock client : String} {command : Command}
    {state : LockState} (hmove : LockMoves sm lock command state)
    (h : (sm.lockState lock).heldBy client) :
    command = .release lock client ∨ state.heldBy client := by
  cases hmove with
  | same => exact .inr h
  | grant request hname hnew hgrant => exact .inr (h.hold request)
  | wait request hname hnew hgrant => exact .inr h
  | abort hfound => exact .inr h
  | @release clientId hheld =>
      by_cases hc : client = clientId
      · rw [hc]
        exact .inl rfl
      · refine .inr (LockState.heldBy.holdAll ?_ _)
        simpa [LockState.heldBy, LockState.leave, Dict.get?_erase_of_ne hc] using h

/-- **Only a release takes a lock away from a client.** -/
theorem Holds.step {sm : LockStateMachine} {lock client : String} (h : Holds sm lock client)
    (command : Command) :
    command = .release lock client ∨ Holds (sm.apply command).1 lock client :=
  (apply_lockMoves sm lock command).keeps h

/-! ### Requests wait at their own lock -/

/-- The queue of every lock holds requests for this lock. -/
def QueuedAtOwnLock (sm : LockStateMachine) : Prop :=
  ∀ name, ∀ request ∈ (sm.lockState name).queue, request.lockName = name

/-- A move takes requests from the queue, except that an acquire may add its own. -/
theorem LockMoves.queue {sm : LockStateMachine} {name : String} {command : Command}
    {state : LockState} (hmove : LockMoves sm name command state) {request : LockRequest}
    (hq : request ∈ state.queue) :
    request ∈ (sm.lockState name).queue ∨ request.lockName = name ∧
      command = .acquire request.requestId name request.clientId request.mode request.ttlMs
        request.createdAt := by
  cases hmove with
  | same => exact .inl hq
  | grant request' hname hnew hgrant =>
      rw [hold_queue] at hq
      exact .inl hq
  | wait request' hname hnew hgrant =>
      rcases List.mem_append.1 hq with hq | hq
      · exact .inl hq
      · rw [List.mem_singleton.1 hq]
        exact .inr ⟨hname, rfl⟩
  | @release clientId hheld =>
      rw [LockState.regrant, holdAll_queue] at hq
      have hqueue := takeGranted_append ((sm.lockState name).leave clientId)
      left
      show request ∈ ((sm.lockState name).leave clientId).queue
      rw [← hqueue]
      exact List.mem_append_right _ hq
  | abort hfound => exact .inl (List.mem_of_mem_eraseP hq)

theorem queuedAtOwnLock_applyAll (commands : List Command) :
    QueuedAtOwnLock (applyAll commands) := by
  induction commands using List.reverseRecOn with
  | nil =>
      intro name request hq
      cases hq
  | append_singleton commands command ih =>
      intro name request hq
      rw [applyAll_snoc] at hq
      rcases (apply_lockMoves _ name command).queue hq with hq | ⟨hname, -⟩
      · exact ih name request hq
      · exact hname

/-! ### Recorded grants -/

/-- The stored answer of a request is `granted`. -/
def Granted (sm : LockStateMachine) (requestId : String) (info : RequestInfo) : Prop :=
  sm.requests.get? requestId = some (.granted info)

/-- The loop of `_grant_waiting` records requests that hold the lock. -/
theorem granted_grantLoop {sm : LockStateMachine} {name requestId : String} {info : RequestInfo}
    {granted : List LockRequest} (h : Granted (sm.grantLoop name granted).1 requestId info) :
    Granted sm requestId info ∨ ∃ request ∈ granted, request.requestId = requestId ∧
      request.info = info ∧ ((sm.lockState name).holdAll granted).heldBy request.clientId := by
  induction granted generalizing sm with
  | nil => exact .inl h
  | cons request granted ih =>
      have hgrant := grantRequest_fst sm name request
      cases hcompleted : ((sm.lockState name).hold request).2 with
      | false =>
          rw [hcompleted] at hgrant
          left
          simpa [Granted, grantLoop, hgrant.2.2, hgrant.2.1] using h
      | true =>
          rw [hcompleted] at hgrant
          simp only [grantLoop, hgrant.2.2, if_true] at h
          have hstate := lockState_grantRequest sm name name request
          rw [if_pos rfl] at hstate
          rw [LockState.holdAll_of_hold hcompleted]
          rcases ih h with hrec | ⟨request', hmem, hid, hinfo, hheld⟩
          · rw [Granted, Dict.get?_set, hgrant.2.1] at hrec
            split at hrec
            · next hid =>
                cases hrec
                exact .inr ⟨request, List.mem_cons_self, hid.symm, rfl,
                  (heldBy_hold_self _ request).holdAll granted⟩
            · exact .inl hrec
          · rw [lockState_withRequests, hstate] at hheld
            exact .inr ⟨request', List.mem_cons_of_mem _ hmem, hid, hinfo, hheld⟩

theorem holds_applyAcquire {sm : LockStateMachine} {request : LockRequest}
    (hnew : sm.requests.get? request.requestId = none)
    (hgrant : canGrant (sm.lockState request.lockName) request = true) :
    Holds (sm.applyAcquire request).1 request.lockName request.clientId := by
  rw [Holds, lockState_applyAcquire hnew, if_pos rfl, if_pos hgrant]
  exact heldBy_hold_self _ request

theorem granted_applyAcquire {sm : LockStateMachine} {request : LockRequest} {requestId : String}
    {info : RequestInfo} (h : Granted (sm.applyAcquire request).1 requestId info) :
    Granted sm requestId info ∨ request.requestId = requestId ∧ request.info = info ∧
      Holds (sm.applyAcquire request).1 request.lockName request.clientId := by
  cases hnew : sm.requests.get? request.requestId with
  | some result =>
      simp only [applyAcquire, hnew] at h
      exact .inl h
  | none =>
      rcases applyAcquire_new request hnew with ⟨hgrant, -, hreq⟩ | ⟨-, -, hreq⟩ | ⟨-, -, hreq⟩
      · rw [Granted, hreq, Dict.get?_set] at h
        split at h
        · next hid =>
            cases h
            exact .inr ⟨hid.symm, rfl, holds_applyAcquire hnew hgrant⟩
        · exact .inl h
      · rw [Granted, hreq] at h
        exact .inl h
      · rw [Granted, hreq, Dict.get?_set] at h
        split at h
        · cases h
        · exact .inl h

/-- A grant that a release records holds the lock after it. -/
theorem granted_applyRelease {sm : LockStateMachine} {lock clientId requestId : String}
    {info : RequestInfo} (hown : QueuedAtOwnLock sm)
    (h : Granted (sm.applyRelease lock clientId).1 requestId info) :
    Granted sm requestId info ∨ info.requestId = requestId ∧ info.lock = lock ∧
      Holds (sm.applyRelease lock clientId).1 lock info.clientId := by
  unfold Holds
  rw [lockState_applyRelease]
  cases hlock : sm.locks.get? lock with
  | none =>
      simp only [applyRelease, hlock] at h
      exact .inl h
  | some state =>
      have hstate := lockState_eq_of_get? hlock
      subst hstate
      by_cases hheld : ((sm.lockState lock).holders.get? clientId).isSome = true
      · rw [if_pos ⟨rfl, hheld⟩]
        simp only [applyRelease, hlock, hheld, if_true, grantWaiting] at h
        rcases granted_grantLoop h with h | ⟨request, hmem, hid, hinfo, hholds⟩
        · exact .inl h
        · rw [lockState_setLock_self, lockState_withHeld, lockState_setLock_self] at *
          have hqueue : request ∈ (sm.lockState lock).queue := by
            have happend := takeGranted_append ((sm.lockState lock).leave clientId)
            show request ∈ ((sm.lockState lock).leave clientId).queue
            rw [← happend]
            exact List.mem_append_left _ hmem
          rw [← hinfo]
          exact .inr ⟨hid, hown lock request hqueue, hholds⟩
      · simp only [applyRelease, hlock, hheld] at h
        exact .inl h

/-- A grant that a command records holds the lock after it. -/
theorem Granted.step {sm : LockStateMachine} {command : Command} {requestId : String}
    {info : RequestInfo} (hown : QueuedAtOwnLock sm)
    (h : Granted (sm.apply command).1 requestId info) :
    Granted sm requestId info ∨
      info.requestId = requestId ∧ Holds (sm.apply command).1 info.lock info.clientId := by
  cases command with
  | acquire requestId' lock clientId mode ttlMs createdAt =>
      rcases granted_applyAcquire h with h | ⟨hid, hinfo, hheld⟩
      · exact .inl h
      · rw [← hinfo]
        exact .inr ⟨hid, hheld⟩
  | release lock clientId =>
      rcases granted_applyRelease hown h with h | ⟨hid, rfl, hheld⟩
      · exact .inl h
      · exact .inr ⟨hid, hheld⟩
  | abort requestId' reason =>
      left
      simp only [apply, applyAbort] at h
      split at h
      · exact h
      · rw [Granted, Dict.get?_set] at h
        split at h
        · cases h
        · exact h
  | other op => exact .inl h

/-! ### Ids of queued requests -/

/-- What the loop of `_grant_waiting` stores. -/
theorem requests_grantLoop {sm : LockStateMachine} {name : String} (granted : List LockRequest)
    (id : String) :
    (sm.grantLoop name granted).1.requests.get? id = sm.requests.get? id ∨
      ∃ request ∈ granted, request.requestId = id ∧
        (sm.grantLoop name granted).1.requests.get? id = some (.granted request.info) := by
  induction granted generalizing sm with
  | nil => exact .inl rfl
  | cons request granted ih =>
      have hgrant := (grantRequest_fst sm name request).2.1
      cases hcompleted : (sm.grantRequest name request).2 with
      | false =>
          left
          simp [grantLoop, hcompleted, hgrant]
      | true =>
          simp only [grantLoop, hcompleted, if_true]
          rcases @ih { (sm.grantRequest name request).1 with
            requests := (sm.grantRequest name request).1.requests.set request.requestId
              (.granted request.info) } with hsame | ⟨request', hmem, hid, hstored⟩
          · rw [hsame, hgrant, Dict.get?_set]
            split
            · next hid => exact .inr ⟨request, List.mem_cons_self, hid.symm, rfl⟩
            · exact .inl rfl
          · exact .inr ⟨request', List.mem_cons_of_mem _ hmem, hid, hstored⟩

/-- An answer is never taken out of the table. -/
theorem requests_mono {sm : LockStateMachine} (command : Command) {id : String}
    (h : sm.requests.get? id ≠ none) : (sm.apply command).1.requests.get? id ≠ none := by
  have hset : ∀ (id' : String) (result : Result), (sm.requests.set id' result).get? id ≠ none := by
    intro id' result
    rw [Dict.get?_set]
    split
    · exact Option.some_ne_none _
    · exact h
  cases command with
  | acquire requestId lock clientId mode ttlMs createdAt =>
      cases hnew : sm.requests.get? requestId with
      | some result => simpa only [apply, applyAcquire, hnew] using h
      | none =>
          rcases applyAcquire_new ⟨requestId, lock, clientId, mode, createdAt, ttlMs⟩ hnew with
            ⟨-, -, hreq⟩ | ⟨-, -, hreq⟩ | ⟨-, -, hreq⟩
          · exact (congrArg (·.get? id ≠ none) hreq).mpr (hset _ _)
          · exact (congrArg (·.get? id ≠ none) hreq).mpr h
          · exact (congrArg (·.get? id ≠ none) hreq).mpr (hset _ _)
  | release lock clientId =>
      simp only [apply, applyRelease]
      split
      · exact h
      · split
        · simp only [grantWaiting]
          rcases requests_grantLoop _ id with hsame | ⟨request, -, -, hstored⟩
          · rw [hsame]
            exact h
          · rw [hstored]
            exact Option.some_ne_none _
        · exact h
  | abort requestId reason =>
      simp only [apply, applyAbort]
      split
      · exact h
      · exact hset _ _
  | other op => exact h

/-- **An id is queued once**: it has been seen, and it is in one place of one queue. -/
structure QueuedOnce (sm : LockStateMachine) : Prop where
  known : ∀ name, ∀ r ∈ (sm.lockState name).queue, sm.requests.get? r.requestId ≠ none
  nodup : ∀ name, ((sm.lockState name).queue.map (·.requestId)).Nodup
  apart : ∀ {name name'}, ∀ r ∈ (sm.lockState name).queue, ∀ r' ∈ (sm.lockState name').queue,
    r.requestId = r'.requestId → name = name'

/-- A queue loses requests, or gets the request of an acquire whose id was not seen before. -/
theorem LockMoves.queue_cases {sm : LockStateMachine} {name : String} {command : Command}
    {state : LockState} (hmove : LockMoves sm name command state) :
    state.queue.Sublist (sm.lockState name).queue ∨
      ∃ request, command = .acquire request.requestId name request.clientId request.mode
          request.ttlMs request.createdAt ∧ request.lockName = name ∧
        sm.requests.get? request.requestId = none ∧
        canGrant (sm.lockState name) request = false ∧
        state.queue = (sm.lockState name).queue ++ [request] := by
  cases hmove with
  | same => exact .inl (List.Sublist.refl _)
  | grant request hname hnew hgrant =>
      rw [hold_queue]
      exact .inl (List.Sublist.refl _)
  | wait request hname hnew hgrant => exact .inr ⟨request, rfl, hname, hnew, hgrant, rfl⟩
  | @release clientId hheld =>
      left
      rw [LockState.regrant, holdAll_queue]
      have hqueue := takeGranted_append ((sm.lockState name).leave clientId)
      show List.Sublist _ ((sm.lockState name).leave clientId).queue
      rw [← hqueue]
      exact List.sublist_append_right _ _
  | abort hfound => exact .inl List.eraseP_sublist

theorem QueuedOnce.step {sm : LockStateMachine} (h : QueuedOnce sm) (command : Command) :
    QueuedOnce (sm.apply command).1 := by
  have hcases := fun name => (apply_lockMoves sm name command).queue_cases
  -- a queued request was queued before, or it is the one of this acquire
  have hmem : ∀ name, ∀ r ∈ ((sm.apply command).1.lockState name).queue,
      r ∈ (sm.lockState name).queue ∨ sm.requests.get? r.requestId = none ∧
        command = .acquire r.requestId name r.clientId r.mode r.ttlMs r.createdAt ∧
        r.lockName = name ∧ canGrant (sm.lockState name) r = false := by
    intro name r hr
    rcases hcases name with hsub | ⟨request, hcommand, hname, hnew, hgrant, hqueue⟩
    · exact .inl (hsub.subset hr)
    · rw [hqueue] at hr
      rcases List.mem_append.1 hr with hr | hr
      · exact .inl hr
      · obtain rfl := List.mem_singleton.1 hr
        exact .inr ⟨hnew, hcommand, hname, hgrant⟩
  refine ⟨fun name r hr => ?_, fun name => ?_, fun {name name'} r hr r' hr' hid => ?_⟩
  · rcases hmem name r hr with hr | ⟨hnew, rfl, rfl, hgrant⟩
    · exact requests_mono command (h.known name r hr)
    · rcases applyAcquire_new r hnew with ⟨htrue, -⟩ | ⟨htrue, -⟩ | ⟨-, -, hreq⟩
      · rw [htrue] at hgrant; cases hgrant
      · rw [htrue] at hgrant; cases hgrant
      · have hreq' : (sm.apply (.acquire r.requestId r.lockName r.clientId r.mode r.ttlMs
          r.createdAt)).1.requests = _ := hreq
        rw [hreq', Dict.get?_set_self]
        exact Option.some_ne_none _
  · rcases hcases name with hsub | ⟨request, -, -, hnew, -, hqueue⟩
    · exact (h.nodup name).sublist (hsub.map _)
    · rw [hqueue, List.map_append]
      refine (h.nodup name).append (List.nodup_singleton _) fun id hid hid' => ?_
      obtain ⟨r, hr, rfl⟩ := List.mem_map.1 hid
      rw [List.map_singleton, List.mem_singleton] at hid'
      exact h.known name r hr (hid' ▸ hnew)
  · rcases hmem name r hr with hr | ⟨hnew, hcommand, -⟩ <;>
      rcases hmem name' r' hr' with hr' | ⟨hnew', hcommand', -⟩
    · exact h.apart r hr r' hr' hid
    · exact absurd (hid ▸ hnew') (h.known name r hr)
    · exact absurd (hid ▸ hnew) (h.known name' r' hr')
    · rw [hcommand] at hcommand'
      exact (Command.acquire.inj hcommand').2.1

/-- **In a sequence of commands, an id is queued once.** -/
theorem queuedOnce_applyAll (commands : List Command) : QueuedOnce (applyAll commands) := by
  induction commands using List.reverseRecOn with
  | nil =>
      exact ⟨fun name r hr => (by cases hr), fun name => List.nodup_nil,
        fun {name name'} r hr => (by cases hr)⟩
  | append_singleton commands command ih =>
      rw [applyAll_snoc]
      exact ih.step command

/-! ### The meaning of a grant -/

/-- The history of a grant: at some moment a command granted the request, and the client held the
lock; it still holds it unless it has been released for the client since then. -/
def GrantedAt (commands : List Command) (info : RequestInfo) : Prop :=
  ∃ pre command post, commands = pre ++ command :: post ∧
    ¬ Granted (applyAll pre) info.requestId info ∧
    Granted (applyAll (pre ++ [command])) info.requestId info ∧
    Holds (applyAll (pre ++ [command])) info.lock info.clientId ∧
    (.release info.lock info.clientId ∈ post ∨ Holds (applyAll commands) info.lock info.clientId)

/-- **Every recorded grant was one.** -/
theorem grantedAt_applyAll (commands : List Command) {requestId : String} {info : RequestInfo}
    (h : Granted (applyAll commands) requestId info) :
    info.requestId = requestId ∧ GrantedAt commands info := by
  induction commands using List.reverseRecOn with
  | nil => cases h
  | append_singleton commands command ih =>
      by_cases hold : Granted (applyAll commands) requestId info
      · obtain ⟨hid, pre, command', post, rfl, hbefore, hgranted, hthen, hsince⟩ := ih hold
        refine ⟨hid, pre, command', post ++ [command], by simp, hbefore, hgranted, hthen, ?_⟩
        rcases hsince with hsince | hheld
        · exact .inl (List.mem_append_left _ hsince)
        · rcases hheld.step command with rfl | hheld
          · exact .inl (List.mem_append_right _ (List.mem_singleton_self _))
          · rw [applyAll_snoc]
            exact .inr hheld
      · have h' := h
        rw [applyAll_snoc] at h'
        rcases h'.step (queuedAtOwnLock_applyAll commands) with h' | ⟨rfl, hheld⟩
        · exact absurd h' hold
        · rw [← applyAll_snoc] at hheld
          exact ⟨rfl, commands, command, [], rfl, hold, h, hheld, .inr hheld⟩

/-- **What the answer to an acquire means.**  When a new request is granted, the client holds the
lock.  For an id that was seen before nothing changes and the stored answer is returned.  If that is
`granted`, it is about an earlier moment: the client of the answer held its lock then, and still
does unless it has been released since. -/
theorem granted_held (commands : List Command) (requestId lock client : String) (mode ttlMs : Json)
    (createdAt : ℚ) :
    ((applyAll commands).requests.get? requestId = none → ∀ info,
      ((applyAll commands).apply (.acquire requestId lock client mode ttlMs createdAt)).2 =
        .ok (.granted info) →
      info = ⟨requestId, lock, client, mode⟩ ∧
      Holds ((applyAll commands).apply (.acquire requestId lock client mode ttlMs createdAt)).1
        lock client) ∧
    ∀ result, (applyAll commands).requests.get? requestId = some result →
      (applyAll commands).apply (.acquire requestId lock client mode ttlMs createdAt) =
        (applyAll commands, .ok result) ∧
      ∀ info, result = .granted info → info.requestId = requestId ∧ GrantedAt commands info := by
  constructor
  · intro hnew info h
    rw [apply] at h ⊢
    have hspec := applyAcquire_new ⟨requestId, lock, client, mode, createdAt, ttlMs⟩ hnew
    rcases hspec with ⟨hgrant, hok, -⟩ | ⟨-, hok, -⟩ | ⟨-, hok, -⟩
    · rw [hok] at h
      cases h
      exact ⟨rfl, holds_applyAcquire hnew hgrant⟩
    · rw [hok] at h
      cases h
    · rw [hok] at h
      cases h
  · intro result hresult
    refine ⟨?_, fun info hinfo => ?_⟩
    · simp only [apply, applyAcquire, hresult]
    · rw [hinfo] at hresult
      exact grantedAt_applyAll commands hresult

/-- A client gets a lock and gives it back. -/
def acquireRelease : List Command :=
  [.acquire "r1" "db" "alice" .exclusive .null 0, .release "db" "alice"]

/-- A retry of the acquire is answered `granted`, but nobody holds the lock. -/
theorem granted_not_held :
    ¬ ∀ (commands : List Command) (requestId lock client : String) (mode ttlMs : Json)
      (createdAt : ℚ) (info : RequestInfo),
      ((applyAll commands).apply (.acquire requestId lock client mode ttlMs createdAt)).2 =
        .ok (.granted info) →
      Holds ((applyAll commands).apply (.acquire requestId lock client mode ttlMs createdAt)).1
        lock client := by
  intro hall
  have h := hall acquireRelease "r1" "db" "alice" .exclusive .null 2
    ⟨"r1", "db", "alice", .exclusive⟩ rfl
  have hfree : ((((applyAll acquireRelease).apply
    (.acquire "r1" "db" "alice" .exclusive .null 2)).1.lockState "db").holders.get? "alice") =
      none := rfl
  rw [Holds, LockState.heldBy, hfree] at h
  cases h

/-- The first acquire of that client, with the lock in its hands, and the retry after the release,
about the grant before it. -/
theorem granted_held_acquireRelease :
    Holds ((applyAll []).apply (.acquire "r1" "db" "alice" .exclusive .null 0)).1 "db" "alice" ∧
      (applyAll acquireRelease).apply (.acquire "r1" "db" "alice" .exclusive .null 2) =
        (applyAll acquireRelease, .ok (.granted ⟨"r1", "db", "alice", .exclusive⟩)) ∧
      GrantedAt acquireRelease ⟨"r1", "db", "alice", .exclusive⟩ := by
  have hnew := (granted_held [] "r1" "db" "alice" .exclusive .null 0).1 rfl
    ⟨"r1", "db", "alice", .exclusive⟩ rfl
  obtain ⟨hretry, hgranted⟩ := (granted_held acquireRelease "r1" "db" "alice" .exclusive .null 2).2
    (.granted ⟨"r1", "db", "alice", .exclusive⟩) rfl
  exact ⟨hnew.2, hretry, (hgranted _ rfl).2⟩

end LockManager
