/-
**First come, first served.**

Requests for a lock should be granted in the order in which they arrived.  The queue is served from
its head, so nobody is overtaken there; but `_apply_acquire` grants a request at once when
`_can_grant` allows it, and this looks for writers in the queue, not for readers.  It is right as
long as a reader never waits behind readers only.  After `_apply_abort` has removed a waiting writer
without looking at the queue again, readers may be left there, and a new reader overtakes them.

A second way to be overtaken is an expiry that cannot be computed: `_grant_waiting` has taken the
requests from the queue when it raises, so that they are stored as waiting for ever.

What a command does to the stored answers and to the queues is summed up in `LockManager.Serves`.
It shows that the queue of a lock is the end of the list of all its waiting requests, in the order
of their arrival (`LockManager.Served`), and with this the order of the grants can be read off.

Main definitions:

* `LockManager.arrivals` — the requests of a sequence of commands, in the order of their acquires;
* `LockManager.FirstComeFirstServed` — **nobody is granted before an earlier request**;
* `LockManager.Overtakes` — **the commands that grant a request before an earlier one**.

Main results:

* `LockManager.apply_serves` — what a command stores, and what it does to the queues;
* `LockManager.firstComeFirstServed_iff`, `LockManager.firstComeFirstServed_fails`.
-/

import DistSync.LockQueue

set_option relaxedAutoImplicit false
set_option autoImplicit false

namespace LockManager

open LockStateMachine

/-! ### Arrivals -/

/-- The stored answer of a request is `waiting`. -/
def isWaiting (sm : LockStateMachine) (requestId : String) : Bool :=
  match sm.requests.get? requestId with
  | some (.waiting _) => true
  | _ => false

/-- The stored answer of a request is `granted`. -/
def isGranted (sm : LockStateMachine) (requestId : String) : Bool :=
  match sm.requests.get? requestId with
  | some (.granted _) => true
  | _ => false

/-- The request of an acquire that stores an answer under a new id. -/
def arrival? (sm : LockStateMachine) : Command → Option LockRequest
  | .acquire requestId lock clientId mode ttlMs createdAt =>
      if (sm.requests.get? requestId).isNone ∧
          ((sm.apply (.acquire requestId lock clientId mode ttlMs createdAt)).1.requests.get?
            requestId).isSome then
        some ⟨requestId, lock, clientId, mode, createdAt, ttlMs⟩
      else none
  | _ => none

/-- The requests that arrive when commands are applied, from a given state on. -/
def arrivalsFrom : LockStateMachine → List Command → List LockRequest
  | _, [] => []
  | sm, command :: commands =>
      (arrival? sm command).toList ++ arrivalsFrom (sm.apply command).1 commands

/-- The requests of a sequence of commands, in the order of their arrival. -/
def arrivals (commands : List Command) : List LockRequest := arrivalsFrom ∅ commands

theorem arrivals_snoc (commands : List Command) (command : Command) :
    arrivals (commands ++ [command]) =
      arrivals commands ++ (arrival? (applyAll commands) command).toList := by
  have hfrom : ∀ (commands : List Command) (sm : LockStateMachine),
      arrivalsFrom sm (commands ++ [command]) = arrivalsFrom sm commands ++
        (arrival? (commands.foldl (fun sm command => (sm.apply command).1) sm) command).toList := by
    intro commands
    induction commands with
    | nil => simp [arrivalsFrom]
    | cons first commands ih =>
        intro sm
        rw [List.cons_append, arrivalsFrom, ih, arrivalsFrom, List.append_assoc]
        rfl
  exact hfrom commands ∅

/-- Of two requests for a lock, the later one is not granted while the earlier one waits. -/
def InOrder (sm : LockStateMachine) (requests : List LockRequest) : Prop :=
  requests.Pairwise fun r₁ r₂ => r₁.lockName = r₂.lockName →
    isGranted sm r₂.requestId = true → isWaiting sm r₁.requestId = false

/-- **First come, first served**: after each of the commands the grants are in order. -/
def FirstComeFirstServed (commands : List Command) : Prop :=
  ∀ pre, pre <+: commands → InOrder (applyAll pre) (arrivals pre)

/-! ### What a command stores -/

/-- A command that stores no answer: an acquire under a known id or whose expiry cannot be computed,
a release by a client that does not hold the lock. -/
def StoresNothing (sm : LockStateMachine) : Command → Prop
  | .acquire requestId lock clientId mode ttlMs createdAt =>
      sm.requests.get? requestId ≠ none ∨
        expiry? ⟨requestId, lock, clientId, mode, createdAt, ttlMs⟩ = none
  | .release lock clientId => ¬ (sm.lockState lock).heldBy clientId
  | _ => True

/-- What a command that turns `sm` into `sm'` does to the stored answers and to the queues, with the
request that arrives. -/
inductive Serves (sm sm' : LockStateMachine) : Command → Option LockRequest → Prop
  | same {command : Command} (hnothing : StoresNothing sm command)
      (hstored : ∀ id, sm'.requests.get? id = sm.requests.get? id)
      (hqueue : ∀ name, (sm'.lockState name).queue = (sm.lockState name).queue) :
      Serves sm sm' command none
  | grant (request : LockRequest)
      (hnew : sm.requests.get? request.requestId = none)
      (hgrant : canGrant (sm.lockState request.lockName) request = true)
      (hexpiry : (expiry? request).isSome = true)
      (hstored : ∀ id, sm'.requests.get? id =
        if id = request.requestId then some (.granted request.info) else sm.requests.get? id)
      (hqueue : ∀ name, (sm'.lockState name).queue = (sm.lockState name).queue) :
      Serves sm sm' (.acquire request.requestId request.lockName request.clientId request.mode
        request.ttlMs request.createdAt) (some request)
  | wait (request : LockRequest)
      (hnew : sm.requests.get? request.requestId = none)
      (hgrant : canGrant (sm.lockState request.lockName) request = false)
      (hstored : ∀ id, sm'.requests.get? id =
        if id = request.requestId then some (.waiting request.info) else sm.requests.get? id)
      (hqueue : ∀ name, (sm'.lockState name).queue =
        if name = request.lockName then (sm.lockState name).queue ++ [request]
        else (sm.lockState name).queue) :
      Serves sm sm' (.acquire request.requestId request.lockName request.clientId request.mode
        request.ttlMs request.createdAt) (some request)
  | release (lock clientId : String) (granted dropped rest : List LockRequest)
      (hheld : (sm.lockState lock).heldBy clientId)
      (htake : takeGranted ((sm.lockState lock).leave clientId) = (granted ++ dropped, rest))
      (hexpiry : ∀ r ∈ granted, (expiry? r).isSome = true)
      (hdropped : ∀ r ∈ dropped.head?, expiry? r = none)
      (hgranted : ∀ r ∈ granted, ∃ info, sm'.requests.get? r.requestId = some (.granted info))
      (hstored : ∀ id, (∀ r ∈ granted, r.requestId ≠ id) →
        sm'.requests.get? id = sm.requests.get? id)
      (hqueue : ∀ name, (sm'.lockState name).queue =
        if name = lock then rest else (sm.lockState name).queue) :
      Serves sm sm' (.release lock clientId) none
  | abort (requestId : String) (reason : Option String) (name : String) (request : LockRequest)
      (hfind : (sm.lockState name).queue.find? (·.requestId = requestId) = some request)
      (haborted : ∃ lock clientId reason', sm'.requests.get? requestId =
        some (.aborted requestId lock clientId reason'))
      (hstored : ∀ id, id ≠ requestId → sm'.requests.get? id = sm.requests.get? id)
      (hqueue : ∀ name', (sm'.lockState name').queue =
        if name' = name then (sm.lockState name').queue.eraseP (·.requestId = requestId)
        else (sm.lockState name').queue) :
      Serves sm sm' (.abort requestId reason) none

/-- A holding is entered completely when its expiry can be computed. -/
theorem hold_snd (state : LockState) (request : LockRequest) :
    (state.hold request).2 = (expiry? request).isSome := by
  simp only [LockState.hold]
  split
  · next h => rw [h]; rfl
  · next h => rw [h]; rfl

/-- A grant ends when the expiry can be computed. -/
theorem grantRequest_snd (sm : LockStateMachine) (name : String) (request : LockRequest) :
    (sm.grantRequest name request).2 = (expiry? request).isSome := by
  rw [(grantRequest_fst sm name request).2.2, hold_snd]

/-- The loop of `_grant_waiting` stores `granted` up to the first request that raises. -/
theorem requests_grantLoop_of_append {sm : LockStateMachine} {name : String} :
    ∀ {taken : List LockRequest}, ∃ granted dropped, taken = granted ++ dropped ∧
      (∀ r ∈ granted, (expiry? r).isSome = true) ∧ (∀ r ∈ dropped.head?, expiry? r = none) ∧
      (∀ r ∈ granted, ∃ info,
        (sm.grantLoop name taken).1.requests.get? r.requestId = some (.granted info)) ∧
      ∀ id, (∀ r ∈ granted, r.requestId ≠ id) →
        (sm.grantLoop name taken).1.requests.get? id = sm.requests.get? id := by
  intro taken
  induction taken generalizing sm with
  | nil => exact ⟨[], [], rfl, by simp, by simp, by simp, fun id _ => rfl⟩
  | cons request taken ih =>
      have hfst := grantRequest_fst sm name request
      rw [hold_snd] at hfst
      cases hexpiry : expiry? request with
      | none =>
          rw [hexpiry, Option.isSome_none] at hfst
          refine ⟨[], request :: taken, rfl, by simp, ?_, by simp, fun id _ => ?_⟩
          · intro r hr
            rw [← Option.some.inj hr]
            exact hexpiry
          · simp [grantLoop, hfst.2.2, hfst.2.1]
      | some expiry =>
          rw [hexpiry, Option.isSome_some] at hfst
          have hloop : sm.grantLoop name (request :: taken) =
              grantLoop { (sm.grantRequest name request).1 with
                requests := (sm.grantRequest name request).1.requests.set request.requestId
                  (.granted request.info) } name taken := by
            simp [grantLoop, hfst.2.2]
          obtain ⟨granted, dropped, htaken, hall, hdropped, hgranted, hstored⟩ :=
            @ih { (sm.grantRequest name request).1 with
              requests := (sm.grantRequest name request).1.requests.set request.requestId
                (.granted request.info) }
          rw [hloop]
          refine ⟨request :: granted, dropped, by rw [htaken, List.cons_append], ?_, hdropped, ?_,
            fun id hid => ?_⟩
          · intro r hr
            rcases List.mem_cons.1 hr with rfl | hr
            · rw [hexpiry]; rfl
            · exact hall r hr
          · intro r hr
            by_cases hagain : ∃ r' ∈ granted, r'.requestId = r.requestId
            · obtain ⟨r', hr', hid⟩ := hagain
              exact hid ▸ hgranted r' hr'
            · have hnot : ∀ r' ∈ granted, r'.requestId ≠ r.requestId := by simpa using hagain
              rcases List.mem_cons.1 hr with rfl | hr
              · exact ⟨r.info, by rw [hstored _ hnot, Dict.get?_set_self]⟩
              · exact absurd rfl (hnot r hr)
          · rw [hstored id fun r hr => hid r (List.mem_cons_of_mem _ hr), Dict.get?_set,
              if_neg fun h => hid request List.mem_cons_self h.symm, hfst.2.1]

/-- What an acquire with a new id stores. -/
theorem requests_applyAcquire {sm : LockStateMachine} {request : LockRequest}
    (hnew : sm.requests.get? request.requestId = none) :
    (sm.applyAcquire request).1.requests =
      if canGrant (sm.lockState request.lockName) request = true then
        if (expiry? request).isSome = true then
          sm.requests.set request.requestId (.granted request.info)
        else sm.requests
      else sm.requests.set request.requestId (.waiting request.info) := by
  have hfst := grantRequest_fst { sm with locks := sm.locks.setdefault request.lockName ∅ }
    request.lockName request
  rw [hold_snd] at hfst
  simp only [applyAcquire, hnew, lockState_setdefault]
  cases hgrant : canGrant (sm.lockState request.lockName) request with
  | false => simp [setLock]
  | true => cases hexpiry : (expiry? request).isSome <;> simp [hfst, hexpiry]

/-- The queues after an acquire with a new id. -/
theorem queue_applyAcquire {sm : LockStateMachine} {request : LockRequest}
    (hnew : sm.requests.get? request.requestId = none) (name : String) :
    ((sm.applyAcquire request).1.lockState name).queue =
      if name = request.lockName ∧ canGrant (sm.lockState name) request = false then
        (sm.lockState name).queue ++ [request]
      else (sm.lockState name).queue := by
  rw [lockState_applyAcquire hnew]
  by_cases hname : name = request.lockName
  · subst hname
    cases hgrant : canGrant (sm.lockState request.lockName) request <;> simp
  · simp [hname]

/-- The command of a request. -/
def LockRequest.acquire (request : LockRequest) : Command :=
  .acquire request.requestId request.lockName request.clientId request.mode request.ttlMs
    request.createdAt

theorem arrival?_acquire (sm : LockStateMachine) (request : LockRequest) :
    arrival? sm request.acquire =
      if (sm.requests.get? request.requestId).isNone ∧
        ((sm.applyAcquire request).1.requests.get? request.requestId).isSome then some request
      else none := rfl

theorem acquire_serves (sm : LockStateMachine) (request : LockRequest) :
    Serves sm (sm.applyAcquire request).1 request.acquire (arrival? sm request.acquire) := by
  cases hnew : sm.requests.get? request.requestId with
  | some result =>
      have hsame : (sm.applyAcquire request).1 = sm := by simp only [applyAcquire, hnew]
      rw [arrival?_acquire, hnew, hsame, if_neg (by simp)]
      refine .same (.inl ?_) (fun _ => rfl) fun _ => rfl
      rw [hnew]
      exact Option.some_ne_none _
  | none =>
      have hrequests := requests_applyAcquire hnew
      have hqueue := queue_applyAcquire hnew
      cases hgrant : canGrant (sm.lockState request.lockName) request with
      | false =>
          rw [hgrant, if_neg Bool.false_ne_true] at hrequests
          rw [arrival?_acquire, hnew, hrequests, if_pos (by simp)]
          refine .wait request hnew hgrant (fun id => by rw [hrequests, Dict.get?_set]) fun name => ?_
          rw [hqueue]
          by_cases hname : name = request.lockName
          · rw [if_pos ⟨hname, hname ▸ hgrant⟩, if_pos hname]
          · rw [if_neg fun h => hname h.1, if_neg hname]
      | true =>
          have hqueue' : ∀ name, ((sm.applyAcquire request).1.lockState name).queue =
              (sm.lockState name).queue := by
            intro name
            rw [hqueue, if_neg]
            rintro ⟨rfl, hnot⟩
            rw [hgrant] at hnot
            cases hnot
          rw [hgrant, if_pos rfl] at hrequests
          cases hexpiry : (expiry? request).isSome with
          | false =>
              -- the answer is not stored when the expiry cannot be computed
              rw [hexpiry, if_neg Bool.false_ne_true] at hrequests
              rw [arrival?_acquire, hrequests, hnew, if_neg (by simp)]
              exact .same (.inr (Option.not_isSome_iff_eq_none.1 (by simp [hexpiry])))
                (fun _ => by rw [hrequests]) hqueue'
          | true =>
              rw [hexpiry, if_pos rfl] at hrequests
              rw [arrival?_acquire, hrequests, hnew, if_pos (by simp)]
              exact .grant request hnew hgrant hexpiry
                (fun id => by rw [hrequests, Dict.get?_set]) hqueue'

/-- A release grants from a state with the same answers. -/
theorem applyRelease_of_heldBy {sm : LockStateMachine} {lock clientId : String}
    (hheld : (sm.lockState lock).heldBy clientId) :
    ∃ sm' : LockStateMachine, sm'.requests = sm.requests ∧ (sm.applyRelease lock clientId).1 =
      (sm'.grantLoop lock (takeGranted ((sm.lockState lock).leave clientId)).1).1 := by
  have hsome : ((sm.lockState lock).holders.get? clientId).isSome = true := hheld
  cases hlock : sm.locks.get? lock with
  | none =>
      rw [lockState, hlock] at hsome
      cases hsome
  | some state =>
      have hstate := lockState_eq_of_get? hlock
      subst hstate
      simp only [applyRelease, hlock]
      rw [if_pos hsome, grantWaiting, lockState_withHeld, lockState_setLock_self]
      refine ⟨_, ?_, rfl⟩
      rfl

/-- A release by a client that does not hold the lock. -/
theorem applyRelease_eq_of_not_heldBy {sm : LockStateMachine} {lock clientId : String}
    (hheld : ¬ (sm.lockState lock).heldBy clientId) :
    sm.applyRelease lock clientId = (sm, .ok (.notHeld lock clientId)) := by
  simp only [applyRelease]
  split
  · rfl
  · next hlock =>
      rw [lockState_eq_of_get? hlock] at hheld
      exact if_neg hheld

theorem applyRelease_of_not_heldBy {sm : LockStateMachine} {lock clientId : String}
    (hheld : ¬ (sm.lockState lock).heldBy clientId) : (sm.applyRelease lock clientId).1 = sm := by
  rw [applyRelease_eq_of_not_heldBy hheld]

theorem release_serves (sm : LockStateMachine) (lock clientId : String) :
    Serves sm (sm.applyRelease lock clientId).1 (.release lock clientId) none := by
  by_cases hheld : (sm.lockState lock).heldBy clientId
  · obtain ⟨sm', hrequests, hloop⟩ := applyRelease_of_heldBy hheld
    obtain ⟨granted, dropped, htaken, hexpiry, hdropped, hgranted, hstored⟩ :=
      @requests_grantLoop_of_append sm' lock (takeGranted ((sm.lockState lock).leave clientId)).1
    rw [← hloop] at hgranted hstored
    rw [hrequests] at hstored
    refine .release lock clientId granted dropped _ hheld (Prod.ext htaken rfl) hexpiry hdropped
      hgranted hstored fun name => ?_
    rw [lockState_applyRelease]
    by_cases hname : name = lock
    · subst hname
      rw [if_pos ⟨rfl, hheld⟩, if_pos rfl, LockState.regrant, holdAll_queue]
    · rw [if_neg fun h => hname h.1, if_neg hname]
  · rw [applyRelease_of_not_heldBy hheld]
    exact .same hheld (fun _ => rfl) fun _ => rfl

theorem abort_serves (sm : LockStateMachine) (requestId : String) (reason : Option String) :
    Serves sm (sm.applyAbort requestId reason).1 (.abort requestId reason) none := by
  simp only [applyAbort]
  split
  · exact .same trivial (fun _ => rfl) fun _ => rfl
  · next name state request hfound =>
      obtain ⟨rfl, hfind⟩ := findQueued_lock hfound
      refine .abort requestId reason name request hfind ?_ (fun id hid => ?_) fun name' => ?_
      · exact ⟨request.lockName, request.clientId, reason.getD "deadlock", Dict.get?_set_self⟩
      · rw [Dict.get?_set, if_neg hid]
        rfl
      · rw [lockState_withRequests, lockState_setLock]
        split
        · next hname => rw [hname]
        · rfl

/-- **What a command stores, and what it does to the queues.** -/
theorem apply_serves (sm : LockStateMachine) (command : Command) :
    Serves sm (sm.apply command).1 command (arrival? sm command) := by
  cases command with
  | acquire requestId lock clientId mode ttlMs createdAt =>
      exact acquire_serves sm ⟨requestId, lock, clientId, mode, createdAt, ttlMs⟩
  | release lock clientId => exact release_serves sm lock clientId
  | abort requestId reason => exact abort_serves sm requestId reason
  | other op => exact .same trivial (fun _ => rfl) fun _ => rfl

/-- A release takes the front of the queue. -/
theorem Serves.queue_eq {sm : LockStateMachine} {lock clientId : String}
    {taken rest : List LockRequest}
    (htake : takeGranted ((sm.lockState lock).leave clientId) = (taken, rest)) :
    (sm.lockState lock).queue = taken ++ rest := by
  have happend := takeGranted_append ((sm.lockState lock).leave clientId)
  rw [htake] at happend
  exact happend.symm

/-! ### The queue is the end of the requests that wait -/

/-- The request waits for the lock `name`. -/
def waitsFor (sm : LockStateMachine) (name : String) (request : LockRequest) : Bool :=
  decide (request.lockName = name) && isWaiting sm request.requestId

/-- **The requests that have arrived**: their ids are different, the waiting ones are what the
stored answers say, and those of a lock end with its queue. -/
structure Served (sm : LockStateMachine) (requests : List LockRequest) : Prop where
  nodup : (requests.map (·.requestId)).Nodup
  known : ∀ r ∈ requests, sm.requests.get? r.requestId ≠ none
  stored : ∀ id info, sm.requests.get? id = some (.waiting info) →
    ∃ r ∈ requests, r.requestId = id ∧ r.info = info
  queue : ∀ name, (sm.lockState name).queue <:+ requests.filter (waitsFor sm name)

/-- A request is stored as waiting, and is in no queue any more. -/
def Stranded (sm : LockStateMachine) (lock : String) : Prop :=
  ∃ id info, sm.requests.get? id = some (.waiting info) ∧ info.lock = lock ∧
    ∀ r ∈ (sm.lockState lock).queue, r.requestId ≠ id

theorem isWaiting_iff {sm : LockStateMachine} {id : String} :
    isWaiting sm id = true ↔ ∃ info, sm.requests.get? id = some (.waiting info) := by
  unfold isWaiting
  split
  · next info h => exact ⟨fun _ => ⟨info, h⟩, fun _ => rfl⟩
  · next h =>
      constructor
      · intro hfalse
        cases hfalse
      · rintro ⟨info, hinfo⟩
        exact absurd hinfo (h info)

theorem isWaiting_congr {sm sm' : LockStateMachine} {id : String}
    (h : sm'.requests.get? id = sm.requests.get? id) : isWaiting sm' id = isWaiting sm id := by
  rw [isWaiting, isWaiting, h]

theorem isGranted_congr {sm sm' : LockStateMachine} {id : String}
    (h : sm'.requests.get? id = sm.requests.get? id) : isGranted sm' id = isGranted sm id := by
  rw [isGranted, isGranted, h]

/-- Without an element whose id is unique. -/
theorem eraseP_eq_filter {queue : List LockRequest} (hnodup : (queue.map (·.requestId)).Nodup)
    (requestId : String) :
    queue.eraseP (·.requestId = requestId) = queue.filter (·.requestId ≠ requestId) := by
  induction queue with
  | nil => rfl
  | cons r queue ih =>
      rw [List.map_cons, List.nodup_cons] at hnodup
      by_cases hid : r.requestId = requestId
      · rw [List.eraseP_cons_of_pos (by simpa using hid), List.filter_cons_of_neg (by simpa using hid),
          List.filter_eq_self.2]
        intro r' hr'
        refine decide_eq_true fun hid' => hnodup.1 ?_
        rw [hid, ← hid']
        exact List.mem_map_of_mem hr'
      · rw [List.eraseP_cons_of_neg (by simpa using hid), List.filter_cons_of_pos (by simpa using hid),
          ih hnodup.2]

namespace Served

variable {sm sm' : LockStateMachine} {requests : List LockRequest} {command : Command}
  {arrived : Option LockRequest} {name : String}

theorem empty : Served ∅ [] where
  nodup := List.nodup_nil
  known := fun r hr => by cases hr
  stored := fun id info h => by cases h
  queue := fun name => List.nil_suffix

theorem unique (h : Served sm requests) {r r' : LockRequest} (hr : r ∈ requests)
    (hr' : r' ∈ requests) (hid : r.requestId = r'.requestId) : r = r' :=
  List.inj_on_of_nodup_map h.nodup hr hr' hid

theorem nodup_requests (h : Served sm requests) : requests.Nodup := h.nodup.of_map _

/-- A queued request has arrived, is for this lock, and waits. -/
theorem of_mem_queue (h : Served sm requests) {r : LockRequest}
    (hr : r ∈ (sm.lockState name).queue) :
    r ∈ requests ∧ r.lockName = name ∧ isWaiting sm r.requestId = true := by
  obtain ⟨hmem, hwaits⟩ := List.mem_filter.1 ((h.queue name).subset hr)
  rw [waitsFor, Bool.and_eq_true, decide_eq_true_eq] at hwaits
  exact ⟨hmem, hwaits⟩

/-- A new id is not among those that have arrived. -/
theorem ne_of_new (h : Served sm requests) {id : String} (hnew : sm.requests.get? id = none)
    {r : LockRequest} (hr : r ∈ requests) : r.requestId ≠ id :=
  fun hid => h.known r hr (hid ▸ hnew)

/-- An answer under a new id does not change who waits of those that have arrived. -/
theorem filter_of_new (h : Served sm requests) {id : String} {result : Result}
    (hnew : sm.requests.get? id = none)
    (hstored : ∀ id', sm'.requests.get? id' =
      if id' = id then some result else sm.requests.get? id') (name : String) :
    requests.filter (waitsFor sm' name) = requests.filter (waitsFor sm name) := by
  refine List.filter_congr fun r hr => ?_
  rw [waitsFor, waitsFor, isWaiting_congr]
  rw [hstored, if_neg (h.ne_of_new hnew hr)]

/-- A request that arrives is stored under its new id. -/
theorem arrive (h : Served sm requests) {request : LockRequest} {result : Result}
    (hnew : sm.requests.get? request.requestId = none)
    (hstored : ∀ id, sm'.requests.get? id =
      if id = request.requestId then some result else sm.requests.get? id)
    (hinfo : ∀ info, result = .waiting info → request.info = info)
    (hqueue : ∀ name, (sm'.lockState name).queue <:+
      requests.filter (waitsFor sm' name) ++ [request].filter (waitsFor sm' name)) :
    Served sm' (requests ++ [request]) where
  nodup := by
    rw [List.map_append]
    refine h.nodup.append (List.nodup_singleton _) fun id hid hid' => ?_
    obtain ⟨r, hr, rfl⟩ := List.mem_map.1 hid
    rw [List.map_singleton, List.mem_singleton] at hid'
    exact h.ne_of_new hnew hr hid'
  known := fun r hr => by
    rw [hstored]
    split
    · exact Option.some_ne_none _
    · rcases List.mem_append.1 hr with hr | hr
      · exact h.known r hr
      · next hid => exact absurd (congrArg _ (List.mem_singleton.1 hr)) hid
  stored := fun id info hid => by
    rw [hstored] at hid
    split at hid
    · next heq =>
        refine ⟨request, List.mem_append_right _ (List.mem_singleton_self _), heq.symm, ?_⟩
        exact hinfo info (Option.some.inj hid)
    · obtain ⟨r, hr, hr'⟩ := h.stored id info hid
      exact ⟨r, List.mem_append_left _ hr, hr'⟩
  queue := fun name => by
    rw [List.filter_append]
    exact hqueue name

/-- Some of the requests do not wait any more, and leave the queues. -/
theorem leave (h : Served sm requests) {G : String → Bool}
    (hgone : ∀ id, G id = true → sm'.requests.get? id ≠ none ∧ isWaiting sm' id = false)
    (hstored : ∀ id, G id = false → sm'.requests.get? id = sm.requests.get? id)
    (hqueue : ∀ name, ∃ rest, rest <:+ (sm.lockState name).queue ∧
      (sm'.lockState name).queue = rest.filter fun r => !G r.requestId) :
    Served sm' requests where
  nodup := h.nodup
  known := fun r hr => by
    cases hid : G r.requestId with
    | true => exact (hgone _ hid).1
    | false =>
        rw [hstored _ hid]
        exact h.known r hr
  stored := fun id info hinfo => by
    cases hid : G id with
    | true =>
        have hnot := (hgone _ hid).2
        rw [isWaiting, hinfo] at hnot
        cases hnot
    | false => exact h.stored id info (hstored _ hid ▸ hinfo)
  queue := fun name => by
    obtain ⟨rest, hrest, hqueue⟩ := hqueue name
    have hsame : requests.filter (waitsFor sm' name) =
        (requests.filter (waitsFor sm name)).filter fun r => !G r.requestId := by
      rw [List.filter_filter]
      refine List.filter_congr fun r _ => ?_
      cases hid : G r.requestId with
      | true => simp [waitsFor, (hgone _ hid).2]
      | false => simp [waitsFor, isWaiting_congr (hstored _ hid)]
    rw [hqueue, hsame]
    exact (hrest.trans (h.queue name)).filter _

/-- The ids in a queue are different. -/
theorem nodup_queue (h : Served sm requests) (name : String) :
    ((sm.lockState name).queue.map (·.requestId)).Nodup :=
  h.nodup.sublist (((h.queue name).sublist.trans List.filter_sublist).map _)

/-- A queued request is only in the queue of its lock. -/
theorem eq_of_mem_queue (h : Served sm requests) {name' : String} {r r' : LockRequest}
    (hr : r ∈ (sm.lockState name).queue) (hr' : r' ∈ (sm.lockState name').queue)
    (hid : r.requestId = r'.requestId) : name = name' := by
  obtain ⟨hr, hname, -⟩ := h.of_mem_queue hr
  obtain ⟨hr', hname', -⟩ := h.of_mem_queue hr'
  rw [← hname, ← hname', h.unique hr hr' hid]

/-- **A command keeps the queues at the end of the waiting requests.** -/
theorem step (h : Served sm requests) (hserves : Serves sm sm' command arrived) :
    Served sm' (requests ++ arrived.toList) := by
  cases hserves with
  | same hnothing hstored hqueue =>
      rw [Option.toList_none, List.append_nil]
      refine h.leave (G := fun _ => false) (fun id hid => by cases hid) (fun id _ => hstored id)
        fun name => ⟨_, List.suffix_refl _, ?_⟩
      rw [hqueue]
      exact (List.filter_eq_self.2 fun _ _ => rfl).symm
  | grant request hnew hgrant hexpiry hstored hqueue =>
      refine h.arrive hnew hstored (fun info hinfo => by cases hinfo) fun name => ?_
      have hnot : [request].filter (waitsFor sm' name) = [] := by
        simp [waitsFor, isWaiting, hstored]
      rw [hnot, List.append_nil, hqueue, h.filter_of_new hnew hstored]
      exact h.queue name
  | wait request hnew hgrant hstored hqueue =>
      refine h.arrive hnew hstored (fun info hinfo => Result.waiting.inj hinfo) fun name => ?_
      rw [hqueue, h.filter_of_new hnew hstored]
      by_cases hname : name = request.lockName
      · have hlast : [request].filter (waitsFor sm' name) = [request] := by
          simp [waitsFor, isWaiting, hstored, hname]
        obtain ⟨front, hfront⟩ := h.queue name
        rw [if_pos hname, hlast, ← hfront, List.append_assoc]
        exact List.suffix_append _ _
      · have hnot : [request].filter (waitsFor sm' name) = [] := by
          simp [waitsFor, Ne.symm hname]
        rw [if_neg hname, hnot, List.append_nil]
        exact h.queue name
  | release lock clientId granted dropped rest hheld htake hexpiry hdropped hgranted hstored hqueue =>
      rw [Option.toList_none, List.append_nil]
      have hsplit := Serves.queue_eq htake
      refine h.leave (G := fun id => granted.any fun g => decide (g.requestId = id))
        (fun id hid => ?_) (fun id hid => hstored id (by simpa using hid)) fun name => ?_
      · obtain ⟨g, hg, hid⟩ := List.any_eq_true.1 hid
        obtain rfl := of_decide_eq_true hid
        obtain ⟨info, hinfo⟩ := hgranted g hg
        simp [isWaiting, hinfo]
      · rw [hqueue]
        split
        · next hname =>
            subst hname
            refine ⟨rest, hsplit ▸ List.suffix_append _ _, (List.filter_eq_self.2 fun r hr => ?_).symm⟩
            -- the ids in the queue are different
            have hnodup := h.nodup_queue name
            rw [hsplit, List.map_append, List.map_append] at hnodup
            have hne := (List.nodup_append.1 hnodup).2.2
            simp only [Bool.not_eq_true', List.any_eq_false, decide_eq_true_eq]
            exact fun g hg => hne _ (List.mem_append_left _ (List.mem_map_of_mem hg)) _
              (List.mem_map_of_mem hr)
        · next hname =>
            refine ⟨_, List.suffix_refl _, (List.filter_eq_self.2 fun r hr => ?_).symm⟩
            simp only [Bool.not_eq_true', List.any_eq_false, decide_eq_true_eq]
            refine fun g hg hid => hname (h.eq_of_mem_queue hr ?_ hid.symm)
            rw [hsplit]
            exact List.mem_append_left _ (List.mem_append_left _ hg)
  | abort requestId reason name request hfind haborted hstored hqueue =>
      rw [Option.toList_none, List.append_nil]
      obtain ⟨lock, clientId, reason', haborted⟩ := haborted
      have hid : request.requestId = requestId := by simpa using List.find?_some hfind
      have hmem := List.mem_of_find?_eq_some hfind
      refine h.leave (G := fun id => decide (id = requestId)) (fun id hid => ?_)
        (fun id hid => hstored id (of_decide_eq_false hid)) fun name' => ?_
      · obtain rfl := of_decide_eq_true hid
        simp [isWaiting, haborted]
      · refine ⟨_, List.suffix_refl _, ?_⟩
        rw [hqueue]
        split
        · rw [eraseP_eq_filter (h.nodup_queue _)]
          simp
        · next hne =>
            refine (List.filter_eq_self.2 fun r hr => ?_).symm
            simp only [Bool.not_eq_true', decide_eq_false_iff_not]
            exact fun hid' => hne (h.eq_of_mem_queue hr hmem (hid'.trans hid.symm))

end Served

theorem served_applyAll (commands : List Command) :
    Served (applyAll commands) (arrivals commands) := by
  induction commands using List.reverseRecOn with
  | nil => exact Served.empty
  | append_singleton commands command ih =>
      rw [applyAll_snoc, arrivals_snoc]
      exact ih.step (apply_serves _ command)

/-! ### Only a lock without holders has no queue -/

/-- Nobody waits for a lock that nobody holds. -/
def IdleFree (state : LockState) : Prop :=
  (∀ c, state.holders.get? c = none) → state.queue = []

theorem not_conflicts_of_free {state : LockState} {request : LockRequest}
    (hfree : ∀ c, state.holders.get? c = none)
    (hmode : request.mode = .shared ∨ request.mode = .exclusive) : ¬ state.conflicts request := by
  rintro ⟨hwriter, hreader⟩
  rcases hmode with hmode | hmode
  · obtain ⟨c, hc⟩ := hreader hmode
    rw [hfree c] at hc
    cases hc
  · obtain ⟨c, hc⟩ := hwriter hmode
    rw [LockState.heldBy, hfree c] at hc
    cases hc

theorem IdleFree.step {sm : LockStateMachine} {name : String} {command : Command}
    {state : LockState} (h : IdleFree (sm.lockState name))
    (hmove : LockMoves sm name command state) (hmodes : (sm.lockState name).wellModed)
    (hcommand : command.wellModed) (hholders : Exclusion (sm.lockState name).holders) :
    IdleFree state := by
  have hmodes' := hmove.wellModed hcommand hmodes
  intro hfree
  cases hmove with
  | same => exact h hfree
  | grant request hname hnew hgrant =>
      have hheld := heldBy_hold_self (sm.lockState name) request
      rw [LockState.heldBy, hfree] at hheld
      cases hheld
  | wait request hname hnew hgrant =>
      -- a request for a free lock without a queue is granted
      exact absurd (conflicts_of_not_canGrant hgrant (h hfree))
        (not_conflicts_of_free hfree (hmodes' request (by simp)))
  | @release clientId hheld =>
      obtain ⟨held, hheld⟩ := hholders
      have hhead : HeadConflicts ((sm.lockState name).leave clientId).regrant :=
        headConflicts_regrant (hheld.erase clientId)
      cases hq : ((sm.lockState name).leave clientId).regrant.queue with
      | nil => rfl
      | cons head rest =>
          have hmem : head ∈ ((sm.lockState name).leave clientId).regrant.queue := by
            rw [hq]
            exact List.mem_cons_self
          exact absurd (hhead head (by rw [hq]; rfl))
            (not_conflicts_of_free hfree (hmodes' head hmem))
  | abort hfound =>
      show (sm.lockState name).queue.eraseP _ = []
      rw [h hfree, List.eraseP_nil]

theorem idleFree_applyAll {commands : List Command}
    (h : ∀ command ∈ commands, command.wellModed) (name : String) :
    IdleFree ((applyAll commands).lockState name) := by
  induction commands using List.reverseRecOn with
  | nil => exact fun _ => rfl
  | append_singleton commands command ih =>
      have hold : ∀ c ∈ commands, c.wellModed := fun c hc => h c (List.mem_append_left _ hc)
      rw [applyAll_snoc]
      exact (ih hold).step (apply_lockMoves _ name command) (wellModed_applyAll hold name)
        (h command (List.mem_append_right _ (List.mem_singleton_self _)))
        (exclusion_applyAll commands name)

/-! ### Overtaking -/

/-- Readers hold the lock, or nobody does, and those who wait for it are readers too. -/
def ReadersQueue (state : LockState) : Prop :=
  state.queue ≠ [] ∧ (∀ r ∈ state.queue, r.mode = .shared) ∧
    ∀ c, state.holders.get? c ≠ some .exclusive

/-- **The commands that grant a request before an earlier one.**  A new reader comes to a lock at
which only readers wait; or a request is granted when another one is stranded at its lock. -/
def Overtakes (sm : LockStateMachine) : Command → Prop
  | .acquire requestId lock clientId mode ttlMs createdAt =>
      sm.requests.get? requestId = none ∧
        (expiry? ⟨requestId, lock, clientId, mode, createdAt, ttlMs⟩).isSome = true ∧
        (mode = .shared ∧ ReadersQueue (sm.lockState lock) ∨
          canGrant (sm.lockState lock) ⟨requestId, lock, clientId, mode, createdAt, ttlMs⟩ = true ∧
            Stranded sm lock)
  | .release lock clientId => (sm.lockState lock).heldBy clientId ∧
      (∃ first ∈ (takeGranted ((sm.lockState lock).leave clientId)).1.head?,
        (expiry? first).isSome = true) ∧ Stranded sm lock
  | _ => False

/-- A request that is granted at once is a reader's, if others wait. -/
theorem readersQueue_of_canGrant {state : LockState} {request : LockRequest}
    (h : canGrant state request = true) (hqueue : state.queue ≠ []) (hidle : IdleFree state)
    (hmodes : state.wellModed) : request.mode = .shared ∧ ReadersQueue state := by
  rcases canGrant_cases h with ⟨-, hfree⟩ | ⟨hmode, hwriter, hnone⟩
  · exact absurd (hidle hfree) hqueue
  · exact ⟨hmode, hqueue, fun r hr => (hmodes r hr).resolve_right (hnone r hr), hwriter⟩

/-- What comes first in a split of the waiting requests has arrived first. -/
theorem pairwise_of_filter {requests front back : List LockRequest} {p : LockRequest → Bool}
    (hnodup : requests.Nodup) (h : requests.filter p = front ++ back) :
    requests.Pairwise fun r₁ r₂ => ¬ (r₁ ∈ back ∧ r₂ ∈ front) := by
  have hsplit : (front ++ back).Nodup := h ▸ hnodup.filter p
  have hdisjoint : ∀ r ∈ front, r ∉ back := fun r hr hr' =>
    (List.nodup_append.1 hsplit).2.2 r hr r hr' rfl
  have hfilter : (requests.filter p).Pairwise fun r₁ r₂ => ¬ (r₁ ∈ back ∧ r₂ ∈ front) := by
    rw [h, List.pairwise_append]
    refine ⟨?_, ?_, fun r₁ hr₁ r₂ _ hboth => hdisjoint r₁ hr₁ hboth.1⟩
    · exact List.pairwise_of_forall_mem_list fun r₁ hr₁ r₂ _ hboth => hdisjoint r₁ hr₁ hboth.1
    · exact List.pairwise_of_forall_mem_list fun r₁ _ r₂ hr₂ hboth => hdisjoint r₂ hboth.2 hr₂
  rw [List.pairwise_filter] at hfilter
  refine hfilter.imp_of_mem fun {r₁ r₂} hr₁ hr₂ hpair hboth => hpair ?_ ?_ hboth
  · have hmem : r₁ ∈ requests.filter p := h ▸ List.mem_append_right _ hboth.1
    exact (List.mem_filter.1 hmem).2
  · have hmem : r₂ ∈ requests.filter p := h ▸ List.mem_append_left _ hboth.2
    exact (List.mem_filter.1 hmem).2

/-! ### The order of the grants -/

/-- What waits for a lock but is not in its queue is stranded. -/
theorem Served.stranded {sm : LockStateMachine} {requests : List LockRequest}
    (h : Served sm requests) {r : LockRequest} (hr : r ∈ requests)
    (hwaits : isWaiting sm r.requestId = true)
    (hnot : r ∉ (sm.lockState r.lockName).queue) : Stranded sm r.lockName := by
  obtain ⟨info, hinfo⟩ := isWaiting_iff.1 hwaits
  obtain ⟨r', hr', hid, rfl⟩ := h.stored _ _ hinfo
  obtain rfl := h.unique hr' hr hid
  refine ⟨_, _, hinfo, rfl, fun q hq heq => hnot ?_⟩
  exact h.unique (h.of_mem_queue hq).1 hr' heq ▸ hq

/-- A stranded request is one that has arrived. -/
theorem Served.exists_stranded {sm : LockStateMachine} {requests : List LockRequest}
    (h : Served sm requests) {lock : String} (hstranded : Stranded sm lock) :
    ∃ r ∈ requests, r.lockName = lock ∧ isWaiting sm r.requestId = true ∧
      r ∉ (sm.lockState lock).queue := by
  obtain ⟨id, info, hinfo, hlock, hqueue⟩ := hstranded
  obtain ⟨r, hr, rfl, rfl⟩ := h.stored id info hinfo
  exact ⟨r, hr, hlock, isWaiting_iff.2 ⟨_, hinfo⟩, fun hmem => hqueue r hmem rfl⟩

/-- Without stranded requests the queue is all that wait for the lock. -/
theorem Served.filter_eq_queue {sm : LockStateMachine} {requests : List LockRequest}
    (h : Served sm requests) {lock : String} (hnot : ¬ Stranded sm lock) :
    requests.filter (waitsFor sm lock) = (sm.lockState lock).queue := by
  obtain ⟨front, hfront⟩ := h.queue lock
  cases front with
  | nil => exact hfront.symm
  | cons r front =>
      exfalso
      have hmem : r ∈ requests.filter (waitsFor sm lock) := by
        rw [← hfront]
        exact List.mem_cons_self
      obtain ⟨hr, hwaits⟩ := List.mem_filter.1 hmem
      rw [waitsFor, Bool.and_eq_true, decide_eq_true_eq] at hwaits
      obtain ⟨rfl, hwaits⟩ := hwaits
      -- in a list without duplicates, its first element is not in the rest
      have hnodup := (h.nodup_requests).filter (waitsFor sm r.lockName)
      rw [← hfront, List.cons_append, List.nodup_cons] at hnodup
      exact hnot (h.stranded hr hwaits fun hmem => hnodup.1 (List.mem_append_right _ hmem))

/-- A release that does not overtake grants the requests that have arrived first. -/
theorem InOrder.release {sm sm' : LockStateMachine} {requests : List LockRequest} {lock : String}
    {granted rest : List LockRequest} (h : InOrder sm requests) (hS : Served sm requests)
    (hfilter : granted ≠ [] → requests.filter (waitsFor sm lock) = granted ++ rest)
    (hgranted : ∀ r ∈ granted, ∃ info, sm'.requests.get? r.requestId = some (.granted info))
    (hstored : ∀ id, (∀ r ∈ granted, r.requestId ≠ id) →
      sm'.requests.get? id = sm.requests.get? id) : InOrder sm' requests := by
  cases hcases : granted with
  | nil =>
      have hsame : ∀ id, sm'.requests.get? id = sm.requests.get? id := fun id =>
        hstored id (by simp [hcases])
      refine h.imp fun {r₁ r₂} hpair hlock hgranted => ?_
      rw [isWaiting_congr (hsame _)]
      exact hpair hlock (by rwa [isGranted_congr (hsame _)] at hgranted)
  | cons first others =>
      have hsplit := hfilter (by rw [hcases]; exact List.cons_ne_nil _ _)
      have hmem : ∀ r ∈ granted, r ∈ requests ∧ r.lockName = lock := by
        intro r hr
        have hr' : r ∈ requests.filter (waitsFor sm lock) := by
          rw [hsplit]
          exact List.mem_append_left _ hr
        obtain ⟨hr', hwaits⟩ := List.mem_filter.1 hr'
        rw [waitsFor, Bool.and_eq_true, decide_eq_true_eq] at hwaits
        exact ⟨hr', hwaits.1⟩
      refine List.Pairwise.imp_of_mem (fun {r₁ r₂} hr₁ hr₂ hpair hlock hgranted' => ?_)
        (h.and (pairwise_of_filter hS.nodup_requests hsplit))
      rw [← Bool.not_eq_true]
      intro hwaits
      have hnot : ∀ g ∈ granted, g.requestId ≠ r₁.requestId := by
        intro g hg hid
        obtain ⟨info, hinfo⟩ := hgranted g hg
        rw [isWaiting, ← hid, hinfo] at hwaits
        cases hwaits
      rw [isWaiting_congr (hstored _ hnot)] at hwaits
      by_cases hnew : ∀ g ∈ granted, g.requestId ≠ r₂.requestId
      · rw [isGranted_congr (hstored _ hnew)] at hgranted'
        rw [hpair.1 hlock hgranted'] at hwaits
        cases hwaits
      · -- the later request has just been granted, so the earlier one was in front of it
        push Not at hnew
        obtain ⟨g, hg, hid⟩ := hnew
        obtain ⟨hg', hname⟩ := hmem g hg
        obtain rfl := hS.unique hg' hr₂ hid
        have hr₁' : r₁ ∈ requests.filter (waitsFor sm lock) :=
          List.mem_filter.2 ⟨hr₁, by simp [waitsFor, hlock, hname, hwaits]⟩
        rw [hsplit] at hr₁'
        rcases List.mem_append.1 hr₁' with hr₁' | hr₁'
        · exact hnot r₁ hr₁' rfl
        · exact hpair.2 ⟨hr₁', hg⟩

/-- **Every command that does not overtake keeps the grants in order.** -/
theorem InOrder.step {sm sm' : LockStateMachine} {requests : List LockRequest} {command : Command}
    {arrived : Option LockRequest} (h : InOrder sm requests) (hS : Served sm requests)
    (hserves : Serves sm sm' command arrived) (hok : ¬ Overtakes sm command)
    (hidle : ∀ name, IdleFree (sm.lockState name))
    (hmodes : ∀ name, (sm.lockState name).wellModed) :
    InOrder sm' (requests ++ arrived.toList) := by
  cases hserves with
  | same hnothing hstored hqueue =>
      rw [Option.toList_none, List.append_nil]
      refine h.imp fun {r₁ r₂} hpair hlock hgranted => ?_
      rw [isWaiting_congr (hstored _)]
      exact hpair hlock (by rwa [isGranted_congr (hstored _)] at hgranted)
  | grant request hnew hgrant hexpiry hstored hqueue =>
      have hold : ∀ r ∈ requests, sm'.requests.get? r.requestId = sm.requests.get? r.requestId :=
        fun r hr => by rw [hstored, if_neg (hS.ne_of_new hnew hr)]
      refine List.pairwise_append.2 ⟨h.imp_of_mem fun {r₁ r₂} hr₁ hr₂ hpair hlock hgranted => ?_,
        List.pairwise_singleton _ _, fun r₁ hr₁ r₂ hr₂ hlock _ => ?_⟩
      · rw [isWaiting_congr (hold _ hr₁)]
        exact hpair hlock (by rwa [isGranted_congr (hold _ hr₂)] at hgranted)
      · obtain rfl := List.mem_singleton.1 hr₂
        rw [isWaiting_congr (hold _ hr₁)]
        by_contra hwaits
        rw [Bool.not_eq_false] at hwaits
        refine hok ⟨hnew, hexpiry, ?_⟩
        by_cases hmem : r₁ ∈ (sm.lockState r₁.lockName).queue
        · rw [hlock] at hmem
          exact .inl (readersQueue_of_canGrant hgrant (List.ne_nil_of_mem hmem) (hidle _) (hmodes _))
        · exact .inr ⟨hgrant, hlock ▸ hS.stranded hr₁ hwaits hmem⟩
  | wait request hnew hgrant hstored hqueue =>
      have hold : ∀ r ∈ requests, sm'.requests.get? r.requestId = sm.requests.get? r.requestId :=
        fun r hr => by rw [hstored, if_neg (hS.ne_of_new hnew hr)]
      refine List.pairwise_append.2 ⟨h.imp_of_mem fun {r₁ r₂} hr₁ hr₂ hpair hlock hgranted => ?_,
        List.pairwise_singleton _ _, fun r₁ hr₁ r₂ hr₂ hlock hgranted => ?_⟩
      · rw [isWaiting_congr (hold _ hr₁)]
        exact hpair hlock (by rwa [isGranted_congr (hold _ hr₂)] at hgranted)
      · obtain rfl := List.mem_singleton.1 hr₂
        rw [isGranted, hstored, if_pos rfl] at hgranted
        cases hgranted
  | release lock clientId granted dropped rest hheld htake hexpiry hdropped hgranted hstored hqueue =>
      rw [Option.toList_none, List.append_nil]
      have hfilter : granted ≠ [] →
          requests.filter (waitsFor sm lock) = granted ++ (dropped ++ rest) := by
        intro hne
        rw [← List.append_assoc, ← Serves.queue_eq htake]
        refine hS.filter_eq_queue fun hstranded => hok ⟨hheld, ?_, hstranded⟩
        rw [htake]
        cases granted with
        | nil => exact absurd rfl hne
        | cons first granted => exact ⟨first, rfl, hexpiry first List.mem_cons_self⟩
      exact h.release hS hfilter hgranted hstored
  | abort requestId reason name request hfind haborted hstored hqueue =>
      rw [Option.toList_none, List.append_nil]
      obtain ⟨lock, clientId, reason', haborted⟩ := haborted
      refine h.imp fun {r₁ r₂} hpair hlock hgranted => ?_
      by_cases hid : r₁.requestId = requestId
      · rw [isWaiting, hid, haborted]
      · have hid' : r₂.requestId ≠ requestId := by
          intro heq
          rw [isGranted, heq, haborted] at hgranted
          cases hgranted
        rw [isWaiting_congr (hstored _ hid)]
        exact hpair hlock (by rwa [isGranted_congr (hstored _ hid')] at hgranted)

/-- In order, no request is granted after one that has arrived before it and waits. -/
theorem not_inOrder {sm : LockStateMachine} {requests : List LockRequest} {r₁ r₂ : LockRequest}
    (hpair : [r₁, r₂].Sublist requests) (hlock : r₁.lockName = r₂.lockName)
    (hgranted : isGranted sm r₂.requestId = true) (hwaits : isWaiting sm r₁.requestId = true) :
    ¬ InOrder sm requests := by
  intro h
  have hpair' := List.pairwise_pair.1 (h.sublist hpair)
  rw [hpair' hlock hgranted] at hwaits
  cases hwaits

/-- An earlier request that waits in front of the queue is before those of the queue. -/
theorem Served.sublist_of_mem_queue {sm : LockStateMachine} {requests : List LockRequest}
    (h : Served sm requests) {r₁ r₂ : LockRequest} (hr₁ : r₁ ∈ requests)
    (hwaits : isWaiting sm r₁.requestId = true) (hnot : r₁ ∉ (sm.lockState r₁.lockName).queue)
    (hr₂ : r₂ ∈ (sm.lockState r₁.lockName).queue) : [r₁, r₂].Sublist requests := by
  obtain ⟨front, hfront⟩ := h.queue r₁.lockName
  have hmem : r₁ ∈ requests.filter (waitsFor sm r₁.lockName) :=
    List.mem_filter.2 ⟨hr₁, by simp [waitsFor, hwaits]⟩
  rw [← hfront] at hmem
  have hsub : ([r₁] ++ [r₂]).Sublist (front ++ (sm.lockState r₁.lockName).queue) :=
    (List.singleton_sublist.2 ((List.mem_append.1 hmem).resolve_right hnot)).append
      (List.singleton_sublist.2 hr₂)
  rw [hfront] at hsub
  exact hsub.trans List.filter_sublist

/-- **A command that overtakes grants a request before an earlier one.** -/
theorem not_inOrder_of_overtakes {sm sm' : LockStateMachine} {requests : List LockRequest}
    {command : Command} {arrived : Option LockRequest} (hS : Served sm requests)
    (hserves : Serves sm sm' command arrived) (h : Overtakes sm command) :
    ¬ InOrder sm' (requests ++ arrived.toList) := by
  cases hserves with
  | same hnothing hstored hqueue =>
      exfalso
      cases command with
      | acquire requestId lock clientId mode ttlMs createdAt =>
          obtain ⟨hnew, hexpiry, -⟩ := h
          rcases hnothing with hknown | hnone
          · exact hknown hnew
          · rw [hnone] at hexpiry
            cases hexpiry
      | release lock clientId => exact hnothing h.1
      | abort requestId reason => exact h
      | other op => exact h
  | grant request hnew hgrant hexpiry hstored hqueue =>
      -- the earlier request waits in the queue, or is stranded
      have hwaiting : ∃ r ∈ requests, r.lockName = request.lockName ∧
          isWaiting sm r.requestId = true := by
        obtain ⟨-, -, ⟨-, hnonempty, -⟩ | ⟨-, hstranded⟩⟩ := h
        · obtain ⟨r, hr⟩ := List.exists_mem_of_ne_nil _ hnonempty
          exact ⟨r, hS.of_mem_queue hr⟩
        · obtain ⟨r, hr, hname, hwaits, -⟩ := hS.exists_stranded hstranded
          exact ⟨r, hr, hname, hwaits⟩
      obtain ⟨r, hr, hname, hwaits⟩ := hwaiting
      refine @not_inOrder _ _ r request ?_ hname ?_ ?_
      · exact (List.singleton_sublist.2 hr).append (List.Sublist.refl [request])
      · rw [isGranted, hstored, if_pos rfl]
      · rw [isWaiting_congr ((hstored _).trans (if_neg (hS.ne_of_new hnew hr)))]
        exact hwaits
  | wait request hnew hgrant hstored hqueue =>
      exfalso
      obtain ⟨-, -, ⟨hmode, hreaders⟩ | ⟨hcan, -⟩⟩ := h
      · have hcan : canGrant (sm.lockState request.lockName) request = true :=
          canGrant_of_readers hmode hreaders.2.1 hreaders.2.2
        rw [hcan] at hgrant
        cases hgrant
      · have hcan : canGrant (sm.lockState request.lockName) request = true := hcan
        rw [hcan] at hgrant
        cases hgrant
  | release lock clientId granted dropped rest hheld htake hexpiry hdropped hgranted hstored hqueue =>
      rw [Option.toList_none, List.append_nil]
      obtain ⟨-, ⟨first, hfirst, hsome⟩, hstranded⟩ := h
      rw [htake] at hfirst
      -- the first request is granted, since its expiry can be computed
      have hmem : first ∈ granted := by
        cases granted with
        | nil =>
            rw [hdropped first hfirst] at hsome
            cases hsome
        | cons r granted => exact Option.some.inj hfirst ▸ List.mem_cons_self
      have hqueued : ∀ g ∈ granted, g ∈ (sm.lockState lock).queue := fun g hg => by
        rw [Serves.queue_eq htake]
        exact List.mem_append_left _ (List.mem_append_left _ hg)
      obtain ⟨r, hr, rfl, hwaits, hnot⟩ := hS.exists_stranded hstranded
      obtain ⟨info, hinfo⟩ := hgranted first hmem
      refine @not_inOrder _ _ r first
        (hS.sublist_of_mem_queue hr hwaits hnot (hqueued first hmem))
        (hS.of_mem_queue (hqueued first hmem)).2.1.symm ?_ ?_
      · rw [isGranted, hinfo]
      · have hsame : ∀ g ∈ granted, g.requestId ≠ r.requestId := fun g hg hid => hnot <|
          hS.unique (hS.of_mem_queue (hqueued g hg)).1 hr hid ▸ hqueued g hg
        rw [isWaiting_congr (hstored _ hsame)]
        exact hwaits
  | abort requestId reason name request hfind haborted hstored hqueue => exact h.elim

/-- **When requests are granted in the order of their arrival**: if and only if no command of the
sequence grants one before an earlier one. -/
theorem firstComeFirstServed_iff (commands : List Command)
    (hmodes : ∀ command ∈ commands, command.wellModed) :
    FirstComeFirstServed commands ↔
      ∀ pre command, pre ++ [command] <+: commands → ¬ Overtakes (applyAll pre) command := by
  refine Runs.forall_prefix_iff (P := fun pre => InOrder (applyAll pre) (arrivals pre)) ?_
    fun pre command hpre horder => ?_
  · exact List.Pairwise.nil
  · rw [applyAll_snoc, arrivals_snoc]
    constructor
    · intro hnext hovertakes
      exact not_inOrder_of_overtakes (served_applyAll pre) (apply_serves _ command) hovertakes hnext
    · intro hok
      have hpre' : pre <+: commands := (List.prefix_append pre [command]).trans hpre
      have hold : ∀ c ∈ pre, c.wellModed := fun c hc => hmodes c (hpre'.subset hc)
      exact horder.step (served_applyAll pre) (apply_serves _ command) hok
        (idleFree_applyAll hold) (wellModed_applyAll hold)

/-- Bob waits for Alice's lock, and gets it when she releases it. -/
def releasedToBob : List Command :=
  [.acquire "r1" "db" "alice" .exclusive .null 0, .acquire "r2" "db" "bob" .exclusive .null 1,
    .release "db" "alice"]

/-- The commands before one of a sequence: none, or the first one and some that follow it. -/
theorem snoc_isPrefix_cons {pre commands : List Command} {first command : Command}
    (h : pre ++ [command] <+: first :: commands) :
    (pre = [] ∧ command = first) ∨ ∃ pre', pre = first :: pre' ∧ pre' ++ [command] <+: commands := by
  cases pre with
  | nil =>
      obtain ⟨rfl, -⟩ := List.cons_prefix_cons.1 h
      exact .inl ⟨rfl, rfl⟩
  | cons head pre =>
      obtain ⟨rfl, htail⟩ := List.cons_prefix_cons.1 h
      exact .inr ⟨pre, rfl, htail⟩

theorem firstComeFirstServed_releasedToBob :
    FirstComeFirstServed releasedToBob ∧
      isGranted (applyAll releasedToBob) "r2" = true := by
  refine ⟨(firstComeFirstServed_iff releasedToBob ?_).2 fun pre command hpre hovertakes => ?_,
    by decide⟩
  · simp [releasedToBob, Command.wellModed]
  · obtain ⟨rfl, rfl⟩ | ⟨pre, rfl, hpre₁⟩ := snoc_isPrefix_cons hpre
    · obtain ⟨-, -, ⟨hmode, -⟩ | ⟨-, id, info, hinfo, -⟩⟩ := hovertakes
      · exact shared_ne_exclusive hmode.symm
      · cases hinfo
    obtain ⟨rfl, rfl⟩ | ⟨pre, rfl, hpre₂⟩ := snoc_isPrefix_cons hpre₁
    · obtain ⟨-, -, ⟨hmode, -⟩ | ⟨hcan, -⟩⟩ := hovertakes
      · exact shared_ne_exclusive hmode.symm
      · exact absurd hcan (by decide)
    obtain ⟨rfl, rfl⟩ | ⟨pre, rfl, hpre₃⟩ := snoc_isPrefix_cons hpre₂
    · -- the only request that waits is in the queue
      obtain ⟨-, -, hstranded⟩ := hovertakes
      obtain ⟨r, hr, -, hwaits, hnot⟩ := (served_applyAll _).exists_stranded hstranded
      have harrivals : arrivals [.acquire "r1" "db" "alice" .exclusive .null 0,
          .acquire "r2" "db" "bob" .exclusive .null 1] =
        [⟨"r1", "db", "alice", .exclusive, 0, .null⟩, ⟨"r2", "db", "bob", .exclusive, 1, .null⟩] := rfl
      rw [harrivals, List.mem_cons, List.mem_singleton] at hr
      rcases hr with rfl | rfl
      · exact absurd hwaits (by decide)
      · exact hnot List.mem_cons_self
    · simp at hpre₃

/-- When the writer between two readers has been aborted, a third reader gets the lock before the
second. -/
def thirdReader : List Command :=
  readerWriterReader ++ [.abort "r2" none, .acquire "r4" "db" "dave" .shared .null 3]

theorem arrivals_thirdReader : arrivals thirdReader =
    [⟨"r1", "db", "alice", .shared, 0, .null⟩, ⟨"r2", "db", "bob", .exclusive, 1, .null⟩,
      ⟨"r3", "db", "carol", .shared, 2, .null⟩, ⟨"r4", "db", "dave", .shared, 3, .null⟩] := rfl

theorem firstComeFirstServed_fails :
    ¬ ∀ commands : List Command, (∀ command ∈ commands, command.wellModed) →
      FirstComeFirstServed commands := by
  intro hall
  have hmodes : ∀ command ∈ thirdReader, command.wellModed := by
    simp [thirdReader, readerWriterReader, Command.wellModed]
  refine @not_inOrder _ _ ⟨"r3", "db", "carol", .shared, 2, .null⟩
    ⟨"r4", "db", "dave", .shared, 3, .null⟩ ?_ rfl (by decide) (by decide)
    (hall thirdReader hmodes _ (List.prefix_refl _))
  rw [arrivals_thirdReader]
  exact List.sublist_append_right [_, _] _

end LockManager
