/-
**Callers and their futures.**

`handle_acquire` makes a future, files it in `pending_futures` under the id of the request, appends
the command, and waits for the future.  `_apply_command` takes the future for the id of a result out
of the table and resolves it.  The id comes from the client, and the table has one place for each
id: a second call with the same id takes the place of the first, and a call that fails empties the
place, whoever is in it.  The first call is then never woken, and answers `timeout`.

The calls at one node are modelled, together with the commands that it has applied and the part of
its log that it has not.  The entries of the calls are marked with the call.  When `append_entry`
returns, with what, and what else is appended by whom, is left open.

Main definitions:

* `LockManager.Callers` — the calls, their futures and `pending_futures`;
* `LockManager.Callers.step` — the moves of the calls and of the log;
* `LockManager.AnsweredBy` — a result is the answer of the state machine for a request;
* `LockManager.Callers.Undisturbed` — **nobody takes the place of a call that waits**.

Main results:

* `LockManager.apply_answers` — what `apply` returns for an id is what the table says of it;
* `LockManager.Callers.woken` — **undisturbed callers get their results**;
  `LockManager.Callers.woken_fails` — with two calls under one id the first does not.
-/

import DistSync.LockFailure
import DistSync.RunRules

set_option relaxedAutoImplicit false
set_option autoImplicit false

namespace LockManager

open LockStateMachine Runs

/-! ### Results and requests -/

/-- `result.get("request_id")`. -/
def Result.requestId? : Result → Option String
  | .granted info => some info.requestId
  | .waiting info => some info.requestId
  | .aborted requestId _ _ _ => some requestId
  | .notFound requestId => some requestId
  | .released _ _ => none
  | .notHeld _ _ => none
  | .error _ => none

/-- The result says what has become of the request. -/
def Result.answers (result : Result) (id : String) : Prop :=
  match result with
  | .granted info => info.requestId = id
  | .waiting info => info.requestId = id
  | .aborted requestId _ _ _ => requestId = id
  | _ => False

theorem Result.answers.requestId? {result : Result} {id : String} (h : result.answers id) :
    result.requestId? = some id := by
  cases result <;> first | exact congrArg some h | exact h.elim

theorem answers_granted (request : LockRequest) :
    (Result.granted request.info).answers request.requestId := rfl

theorem answers_waiting (request : LockRequest) :
    (Result.waiting request.info).answers request.requestId := rfl

theorem answers_aborted (id lock clientId reason : String) :
    (Result.aborted id lock clientId reason).answers id := rfl

/-- What is stored for a request is about this request. -/
def StoredAnswers (sm : LockStateMachine) : Prop :=
  ∀ id result, sm.requests.get? id = some result → result.answers id

theorem answers_applyAcquire {sm : LockStateMachine} (h : StoredAnswers sm) {request : LockRequest}
    {result : Result} (hresult : (sm.applyAcquire request).2 = .ok result) :
    result.answers request.requestId := by
  cases hnew : sm.requests.get? request.requestId with
  | some stored =>
      simp only [applyAcquire, hnew, Except.ok.injEq] at hresult
      exact hresult ▸ h request.requestId stored hnew
  | none =>
      rcases applyAcquire_new request hnew with ⟨-, hok, -⟩ | ⟨-, hok, -⟩ | ⟨-, hok, -⟩ <;>
        rw [hok] at hresult <;> cases hresult
      · exact answers_granted request
      · exact answers_waiting request

/-- The answer to an acquire is what is stored under its id. -/
theorem stored_applyAcquire {sm : LockStateMachine} {request : LockRequest} {result : Result}
    (hresult : (sm.applyAcquire request).2 = .ok result) :
    (sm.applyAcquire request).1.requests.get? request.requestId = some result := by
  cases hnew : sm.requests.get? request.requestId with
  | some stored =>
      simp only [applyAcquire, hnew, Except.ok.injEq] at hresult ⊢
      rw [hresult]
  | none =>
      rcases applyAcquire_new request hnew with ⟨-, hok, hset⟩ | ⟨-, hok, -⟩ | ⟨-, hok, hset⟩ <;>
        rw [hok] at hresult <;> cases hresult <;> rw [hset, Dict.get?_set_self]

theorem StoredAnswers.set {sm sm' : LockStateMachine} (h : StoredAnswers sm) {id : String}
    {result : Result} (hresult : result.answers id)
    (hrequests : sm'.requests = sm.requests.set id result) : StoredAnswers sm' := by
  intro id' result' hstored
  rw [hrequests, Dict.get?_set] at hstored
  split at hstored
  · next hid =>
      rw [← Option.some.inj hstored, hid]
      exact hresult
  · exact h id' result' hstored

theorem StoredAnswers.step {sm : LockStateMachine} (h : StoredAnswers sm) (command : Command) :
    StoredAnswers (sm.apply command).1 := by
  cases command with
  | acquire requestId lock clientId mode ttlMs createdAt =>
      rw [apply]
      cases hnew : sm.requests.get? requestId with
      | some result => simpa only [applyAcquire, hnew] using h
      | none =>
          rcases applyAcquire_new ⟨requestId, lock, clientId, mode, createdAt, ttlMs⟩ hnew with
            ⟨-, -, hrequests⟩ | ⟨-, -, hrequests⟩ | ⟨-, -, hrequests⟩
          · exact h.set (answers_granted _) hrequests
          · intro id result hstored
            rw [hrequests] at hstored
            exact h id result hstored
          · exact h.set (answers_waiting _) hrequests
  | release lock clientId =>
      by_cases hheld : (sm.lockState lock).heldBy clientId
      · obtain ⟨sm', hrequests, hloop⟩ := applyRelease_of_heldBy hheld
        intro id result hstored
        rw [apply, hloop] at hstored
        rcases @requests_grantLoop sm' lock _ id with hsame | ⟨request, -, hid, hgranted⟩
        · rw [hsame, hrequests] at hstored
          exact h id result hstored
        · rw [hgranted] at hstored
          obtain rfl := Option.some.inj hstored
          exact hid
      · rw [apply, applyRelease_of_not_heldBy hheld]
        exact h
  | abort requestId reason =>
      simp only [apply, applyAbort]
      split
      · exact h
      · exact h.set (answers_aborted requestId _ _ _) rfl
  | other op => exact h

/-- **What `apply` returns for an id is what the table says of it**, except for an abort that finds
nothing. -/
theorem apply_answers {sm : LockStateMachine} (h : StoredAnswers sm) {command : Command}
    {result : Result} {id : String} (hresult : (sm.apply command).2 = .ok result)
    (hid : result.requestId? = some id) : (sm.apply command).1.requests.get? id = some result ∨
      sm.findQueued id = none ∧ ∃ reason, command = .abort id reason := by
  cases command with
  | acquire requestId lock clientId mode ttlMs createdAt =>
      left
      have hanswers := answers_applyAcquire h hresult
      rw [hanswers.requestId?, Option.some.injEq] at hid
      rw [← hid]
      exact stored_applyAcquire hresult
  | release lock clientId =>
      exfalso
      by_cases hheld : (sm.lockState lock).heldBy clientId
      · rw [apply, applyRelease_eq hheld] at hresult
        dsimp only at hresult
        split at hresult <;> cases hresult
        cases hid
      · rw [apply, applyRelease_eq_of_not_heldBy hheld] at hresult
        cases hresult
        cases hid
  | abort requestId reason =>
      simp only [apply, applyAbort] at hresult ⊢
      split at hresult
      · next hnone =>
          cases hresult
          obtain rfl := Option.some.inj hid
          exact .inr ⟨hnone, reason, rfl⟩
      · cases hresult
        obtain rfl := Option.some.inj hid
        exact .inl Dict.get?_set_self
  | other op =>
      cases hresult
      cases hid

/-- **The result is the answer of the state machine for the request**: of the commands that were
applied, one that came after the first `since` was answered with it; it has the id of the request,
and was what the table of requests said of the id then. -/
def AnsweredBy (applied : List Command) (since : ℕ) (id : String) (result : Result) : Prop :=
  ∃ pre command post, applied = pre ++ command :: post ∧ since ≤ pre.length ∧
    ((applyAll pre).apply command).2 = .ok result ∧ result.requestId? = some id ∧
    (applyAll (pre ++ [command])).requests.get? id = some result

theorem AnsweredBy.snoc {applied : List Command} {since : ℕ} {id : String} {result : Result}
    (h : AnsweredBy applied since id result) (command : Command) :
    AnsweredBy (applied ++ [command]) since id result := by
  obtain ⟨pre, first, post, rfl, hanswered⟩ := h
  exact ⟨pre, first, post ++ [command], by simp, hanswered⟩

/-! ### The calls -/

/-- The future of a call. -/
inductive Future
  | unresolved
  | resolved (result : Result)
  | cancelled

/-- Where a call of `handle_acquire` is. -/
inductive Stage
  /-- The future is filed, and `append_entry` has not appended the command yet. -/
  | registered
  /-- The command is in the log. -/
  | appended
  /-- `append_entry` has returned `True`, and `wait_for` waits for the future. -/
  | waiting
  /-- The call has answered: with the result of its future, with `timeout`, or `commit_failed`. -/
  | answered
  | timedOut
  | failed
  /-- An exception has come out of `append_entry`. -/
  | raised
deriving DecidableEq

/-- A call of `handle_acquire`.  `applied` says that its command has been applied at this node, and
`inTime` that it had been when `append_entry` returned `True`; `since` is the number of commands
that had been applied when the future was filed. -/
structure Call where
  request : LockRequest
  future : Future
  stage : Stage
  applied : Bool
  inTime : Bool
  since : ℕ

/-- The call is in `append_entry`. -/
def Call.isAppending (call : Call) : Bool :=
  decide (call.stage = .registered) || decide (call.stage = .appended)

/-- `not future.done()`. -/
def Future.isUnresolved : Future → Bool
  | .unresolved => true
  | _ => false

/-- The call is in `append_entry`, and its future is not resolved. -/
def Call.live (call : Call) : Bool := call.isAppending && call.future.isUnresolved

/-- The future of the call gets a result, unless it is done. -/
def Call.wake (call : Call) (result : Result) : Call :=
  if call.future.isUnresolved = true then { call with future := .resolved result } else call

/-- An entry of the log; the entries of the calls at this node are marked. -/
inductive CallEntry
  | own (k : ℕ) (request : LockRequest)
  | other (command : Command)

/-- The command that is applied for an entry. -/
def CallEntry.toCommand : CallEntry → Command
  | .own _ request => request.acquire
  | .other command => command

/-- A node with its calls: `applied` are the commands that it has applied and `log` the entries that
it has not, and `pending` is `pending_futures`, with the call in place of its future. -/
structure Callers where
  applied : List Command
  log : List CallEntry
  pending : Dict String ℕ
  calls : Dict ℕ Call

/-- The moves of the calls and of the log. -/
inductive CallerAction
  /-- `handle_acquire` files the future of a new call. -/
  | start (k : ℕ) (request : LockRequest)
  /-- `append_entry` appends the command of the call. -/
  | append (k : ℕ)
  /-- Another command is appended, here or by another leader. -/
  | appendOther (command : Command)
  /-- The next entry is committed, and `_apply_command` is called with it. -/
  | apply
  /-- A new leader has cut the log. -/
  | truncate (length : ℕ)
  /-- `append_entry` returns `True`, returns `False`, or raises. -/
  | committed (k : ℕ)
  | failed (k : ℕ)
  | raised (k : ℕ)
  /-- `wait_for` returns the result, or gives up. -/
  | answer (k : ℕ)
  | timeout (k : ℕ)

namespace Callers

/-- A node without calls. -/
def initial : Callers := ⟨[], [], ∅, ∅⟩

/-- `self.lock_state`, which has applied the commands. -/
def lockState (s : Callers) : LockStateMachine := applyAll s.applied

/-- A call goes on. -/
def setCall (s : Callers) (k : ℕ) (call : Call) : Callers :=
  { s with calls := s.calls.set k call }

/-- The end of `_apply_command`: the call that is filed under the id of the result is woken. -/
def wake (s : Callers) : Except PyError Result → Callers
  | .error _ => s
  | .ok result => match result.requestId? with
      | none => s
      | some id =>
          if id = "" then s
          else match s.pending.get? id with
            | none => s
            | some k =>
                let s := { s with pending := s.pending.erase id }
                match s.calls.get? k with
                | none => s
                | some call => s.setCall k (call.wake result)

/-- The command of a call has been applied. -/
def markApplied (s : Callers) : CallEntry → Callers
  | .other _ => s
  | .own k _ => match s.calls.get? k with
      | none => s
      | some call => s.setCall k { call with applied := true }

/-- One move. -/
def step (s : Callers) : CallerAction → Option Callers
  | .start k request =>
      -- an empty id is replaced by a new one before
      if request.requestId ≠ "" ∧ (s.calls.get? k).isNone = true then
        some { s.setCall k ⟨request, .unresolved, .registered, false, false, s.applied.length⟩ with
          pending := s.pending.set request.requestId k }
      else none
  | .append k => match s.calls.get? k with
      | some call =>
          if call.stage = .registered then
            some { s.setCall k { call with stage := .appended } with
              log := s.log ++ [.own k call.request] }
          else none
      | none => none
  | .appendOther command => some { s with log := s.log ++ [.other command] }
  | .apply => match s.log with
      | [] => none
      | entry :: log =>
          let result := (s.lockState.apply entry.toCommand).2
          let s := { s with applied := s.applied ++ [entry.toCommand], log := log }
          some ((s.wake result).markApplied entry)
  | .truncate length => some { s with log := s.log.take length }
  | .committed k => match s.calls.get? k with
      | some call =>
          if call.stage = .appended then
            some (s.setCall k { call with stage := .waiting, inTime := call.applied })
          else none
      | none => none
  | .failed k => match s.calls.get? k with
      | some call =>
          if call.isAppending = true then
            some { s.setCall k { call with stage := .failed } with
              pending := s.pending.erase call.request.requestId }
          else none
      | none => none
  | .raised k => match s.calls.get? k with
      | some call =>
          if call.stage = .appended then some (s.setCall k { call with stage := .raised }) else none
      | none => none
  | .answer k => match s.calls.get? k with
      | some call => match call.stage, call.future with
          | .waiting, .resolved _ => some (s.setCall k { call with stage := .answered })
          | _, _ => none
      | none => none
  | .timeout k => match s.calls.get? k with
      | some call => match call.stage, call.future with
          | .waiting, .unresolved =>
              some (s.setCall k { call with stage := .timedOut, future := .cancelled })
          | _, _ => none
      | none => none

/-! ### Callers that are left alone -/

/-- The call `k` waits to be woken in `append_entry`. -/
def live (s : Callers) (k : ℕ) : Bool := (s.calls.get? k).any Call.live

/-- The grant of the request would raise. -/
def raises (sm : LockStateMachine) (request : LockRequest) : Bool :=
  (sm.requests.get? request.requestId).isNone && canGrant (sm.lockState request.lockName) request &&
    (expiry? request).isNone

/-- No live call but `k` is filed under the id. -/
def NobodyElse (s : Callers) (id : String) (k : ℕ) : Prop :=
  ∀ k' ∈ s.pending.get? id, k' ≠ k → s.live k' = false

/-- What is applied does not disturb a live call: its own command does not raise, and no abort that
finds nothing has its id. -/
def AppliesQuietly (s : Callers) : CallEntry → Prop
  | .own k request => s.live k = true → raises s.lockState request = false
  | .other (.abort id _) => s.lockState.findQueued id = none →
      ∀ k' ∈ s.pending.get? id, s.live k' = false
  | .other _ => True

/-- **Nobody takes the place of a call that waits**: no other call files a future under its id, and
no other call that fails empties the place; and it is not disturbed by what is applied. -/
def Undisturbed (s : Callers) : CallerAction → Prop
  | .start k request => s.NobodyElse request.requestId k
  | .failed k => ∀ call ∈ s.calls.get? k, s.NobodyElse call.request.requestId k
  | .apply => ∀ entry ∈ s.log.head?, s.AppliesQuietly entry
  | _ => True

instance decidableNobodyElse (s : Callers) (id : String) (k : ℕ) : Decidable (s.NobodyElse id k) :=
  inferInstanceAs (Decidable (∀ k' ∈ s.pending.get? id, k' ≠ k → s.live k' = false))

instance decidableAppliesQuietly (s : Callers) : (entry : CallEntry) →
    Decidable (s.AppliesQuietly entry)
  | .own k request => inferInstanceAs (Decidable (s.live k = true →
      raises s.lockState request = false))
  | .other (.abort id _) => decidable_of_iff
      (¬ (s.lockState.findQueued id).isNone = true ∨ ∀ k' ∈ s.pending.get? id, s.live k' = false)
      (by rw [Option.isNone_iff_eq_none, ← imp_iff_not_or]; rfl)
  | .other (.acquire _ _ _ _ _ _) => .isTrue trivial
  | .other (.release _ _) => .isTrue trivial
  | .other (.other _) => .isTrue trivial

instance decidableUndisturbed (s : Callers) : (a : CallerAction) → Decidable (s.Undisturbed a)
  | .start k request => inferInstanceAs (Decidable (s.NobodyElse request.requestId k))
  | .failed k => inferInstanceAs (Decidable (∀ call ∈ s.calls.get? k,
      s.NobodyElse call.request.requestId k))
  | .apply => inferInstanceAs (Decidable (∀ entry ∈ s.log.head?, s.AppliesQuietly entry))
  | .append _ => .isTrue trivial
  | .appendOther _ => .isTrue trivial
  | .truncate _ => .isTrue trivial
  | .committed _ => .isTrue trivial
  | .raised _ => .isTrue trivial
  | .answer _ => .isTrue trivial
  | .timeout _ => .isTrue trivial

/-- **Every caller gets its result**: a call whose command had been applied here when `append_entry`
returned `True` has a future with the answer that the state machine has given for its request since
the future was filed, and does not answer `timeout`. -/
def Woken (s : Callers) : Prop :=
  ∀ k call, s.calls.get? k = some call → call.inTime = true →
    call.stage ≠ .timedOut ∧ ∃ result, call.future = .resolved result ∧
      AnsweredBy s.applied call.since call.request.requestId result

/-- What is known of a call, with the commands that were applied and the table in which its future
is filed. -/
structure CallOk (applied : List Command) (pending : Dict String ℕ) (k : ℕ) (call : Call) :
    Prop where
  named : call.request.requestId ≠ ""
  since : call.since ≤ applied.length
  live : call.live = true →
    call.applied = false ∧ pending.get? call.request.requestId = some k
  answers : call.isAppending = true ∨ call.inTime = true →
    ∀ result, call.future = .resolved result →
      AnsweredBy applied call.since call.request.requestId result
  cancelled : call.future = .cancelled ↔ call.stage = .timedOut
  inTime : call.inTime = true →
    call.isAppending = false ∧ ∃ result, call.future = .resolved result

/-- Another table will do that has the call in its place if it is live. -/
theorem CallOk.mono {applied : List Command} {pending pending' : Dict String ℕ} {k : ℕ}
    {call : Call} (h : CallOk applied pending k call)
    (hpending : call.live = true → pending.get? call.request.requestId = some k →
      pending'.get? call.request.requestId = some k) : CallOk applied pending' k call :=
  ⟨h.named, h.since, fun hlive => ⟨(h.live hlive).1, hpending hlive (h.live hlive).2⟩, h.answers,
    h.cancelled, h.inTime⟩

/-- Another command is applied. -/
theorem CallOk.snoc {applied : List Command} {pending : Dict String ℕ} {k : ℕ} {call : Call}
    (h : CallOk applied pending k call) (command : Command) :
    CallOk (applied ++ [command]) pending k call :=
  ⟨h.named, h.since.trans (by simp), h.live,
    fun hopen result hresult => (h.answers hopen result hresult).snoc command, h.cancelled,
    h.inTime⟩

/-- **The invariant**: a call that is live is filed under its id, and its command is not applied. -/
structure Inv (s : Callers) : Prop where
  stored : StoredAnswers s.lockState
  own : ∀ k request, .own k request ∈ s.log →
    ∃ call, s.calls.get? k = some call ∧ call.request = request
  filed : ∀ id k, s.pending.get? id = some k →
    ∃ call, s.calls.get? k = some call ∧ call.request.requestId = id
  call : ∀ k call, s.calls.get? k = some call → CallOk s.applied s.pending k call

theorem live_iff {s : Callers} {k : ℕ} :
    s.live k = true ↔ ∃ call, s.calls.get? k = some call ∧ call.live = true := by
  rw [live, Option.any_eq_true]

theorem live_setCall (s : Callers) (k : ℕ) (call : Call) (k' : ℕ) :
    (s.setCall k call).live k' = if k' = k then call.live else s.live k' := by
  change Option.any _ ((s.calls.set k call).get? k') = _
  rw [Dict.get?_set]
  split <;> rfl

namespace Inv

variable {s : Callers} {k : ℕ} {call call' : Call}

theorem initial : Inv initial where
  stored := fun id result h => by cases h
  own := fun k request h => by cases h
  filed := fun id k h => by cases h
  call := fun k call h => by cases h

/-- A call goes on, with the same request. -/
theorem setCall (h : Inv s) (hk : s.calls.get? k = some call)
    (hok : CallOk s.applied s.pending k call')
    (hrequest : call'.request = call.request) : Inv (s.setCall k call') where
  stored := h.stored
  own k' request hmem := by
    obtain ⟨old, hold, hreq⟩ := h.own k' request hmem
    change ∃ c, (s.calls.set k call').get? k' = some c ∧ _
    rw [Dict.get?_set]
    split
    · next heq =>
        subst heq
        rw [hk, Option.some.injEq] at hold
        exact ⟨call', rfl, by rw [hrequest, hold, hreq]⟩
    · exact ⟨old, hold, hreq⟩
  filed id k' hpending := by
    obtain ⟨old, hold, hid⟩ := h.filed id k' hpending
    change ∃ c, (s.calls.set k call').get? k' = some c ∧ _
    rw [Dict.get?_set]
    split
    · next heq =>
        subst heq
        rw [hk, Option.some.injEq] at hold
        exact ⟨call', rfl, by rw [hrequest, hold, hid]⟩
    · exact ⟨old, hold, hid⟩
  call k' c hc := by
    change (s.calls.set k call').get? k' = some c at hc
    rw [Dict.get?_set] at hc
    split at hc
    · next heq =>
        obtain rfl := Option.some.inj hc
        rw [heq]
        exact hok
    · exact h.call k' c hc

/-- The log may get shorter. -/
theorem withLog (h : Inv s) {log : List CallEntry} (hlog : log ⊆ s.log) :
    Inv { s with log := log } :=
  ⟨h.stored, fun k request hmem => h.own k request (hlog hmem), h.filed, h.call⟩

/-- An id may be taken out of the table when no live call is filed under it. -/
theorem erase (h : Inv s) {id : String} (hnobody : ∀ k ∈ s.pending.get? id, s.live k = false) :
    Inv { s with pending := s.pending.erase id } where
  stored := h.stored
  own := h.own
  filed id' k hpending := by
    change (s.pending.erase id).get? id' = some k at hpending
    rw [Dict.get?_erase] at hpending
    split at hpending
    · cases hpending
    · exact h.filed id' k hpending
  call k call hk := by
    refine (h.call k call hk).mono fun hlive hpending => ?_
    rw [Dict.get?_erase, if_neg]
    · exact hpending
    · rintro rfl
      have hdead := hnobody k hpending
      have halive : s.live k = true := live_iff.2 ⟨call, hk, hlive⟩
      rw [halive] at hdead
      cases hdead

/-- A new call is filed under an id that no live call has. -/
theorem start (h : Inv s) {request : LockRequest} (hnamed : request.requestId ≠ "")
    (hnew : s.calls.get? k = none) (hnobody : s.NobodyElse request.requestId k) :
    Inv { s.setCall k ⟨request, .unresolved, .registered, false, false, s.applied.length⟩ with
      pending := s.pending.set request.requestId k } where
  stored := h.stored
  own k' request' hmem := by
    obtain ⟨old, hold, hreq⟩ := h.own k' request' hmem
    refine ⟨old, ?_, hreq⟩
    change (s.calls.set k _).get? k' = _
    rw [Dict.get?_set, if_neg, hold]
    rintro rfl
    rw [hnew] at hold
    cases hold
  filed id k' hpending := by
    change (s.pending.set request.requestId k).get? id = some k' at hpending
    change ∃ c, (s.calls.set k _).get? k' = some c ∧ _
    rw [Dict.get?_set] at hpending ⊢
    split at hpending
    · next hid =>
        obtain rfl := Option.some.inj hpending
        exact ⟨_, if_pos rfl, hid.symm⟩
    · obtain ⟨old, hold, hid⟩ := h.filed id k' hpending
      refine ⟨old, ?_, hid⟩
      rw [if_neg, hold]
      rintro rfl
      rw [hnew] at hold
      cases hold
  call k' c hc := by
    change (s.calls.set k _).get? k' = some c at hc
    change CallOk s.applied (s.pending.set request.requestId k) k' c
    rw [Dict.get?_set] at hc
    split at hc
    · next heq =>
        obtain rfl := Option.some.inj hc
        refine ⟨hnamed, le_rfl, fun _ => ⟨rfl, ?_⟩, fun _ result hresult => ?_, ?_,
          fun hfalse => ?_⟩
        · rw [Dict.get?_set, if_pos rfl, heq]
        · cases hresult
        · exact iff_of_false (fun h => nomatch h) (fun h => nomatch h)
        · cases hfalse
    · next hne =>
        refine (h.call k' c hc).mono fun hlive hpending => ?_
        rw [Dict.get?_set, if_neg]
        · exact hpending
        · intro hid
          rw [hid] at hpending
          have hdead := hnobody k' hpending hne
          have halive : s.live k' = true := live_iff.2 ⟨c, hc, hlive⟩
          rw [halive] at hdead
          cases hdead

end Inv

/-! ### Calls that go on -/

namespace CallOk

variable {applied : List Command} {pending : Dict String ℕ} {k : ℕ} {call : Call}

/-- The command has been appended. -/
theorem append (h : CallOk applied pending k call) (hstage : call.stage = .registered) :
    CallOk applied pending k { call with stage := .appended } := by
  have hopen : call.isAppending = true := by simp [Call.isAppending, hstage]
  refine ⟨h.named, h.since, fun hlive => h.live ?_, fun _ => h.answers (.inl hopen), ?_,
    fun hinTime => ?_⟩
  · simpa [Call.live, Call.isAppending, hstage] using hlive
  · refine iff_of_false (fun hcancelled => ?_) (fun h => nomatch h)
    have htimedOut := h.cancelled.1 hcancelled
    rw [hstage] at htimedOut
    cases htimedOut
  · have hclosed := (h.inTime hinTime).1
    rw [hopen] at hclosed
    cases hclosed

/-- `append_entry` has ended without a timeout. -/
theorem close (h : CallOk applied pending k call) (hstage : call.stage ≠ .timedOut) {stage : Stage}
    (hregistered : stage ≠ .registered) (happended : stage ≠ .appended)
    (htimedOut : stage ≠ .timedOut) : CallOk applied pending k { call with stage := stage } := by
  have hclosed : ({ call with stage := stage } : Call).isAppending = false := by
    simp [Call.isAppending, hregistered, happended]
  refine ⟨h.named, h.since, fun hlive => ?_, fun hopen => ?_, ?_,
    fun hinTime => ⟨hclosed, (h.inTime hinTime).2⟩⟩
  · simp [Call.live, hclosed] at hlive
  · exact h.answers (.inr (hopen.resolve_left (by simp [hclosed])))
  · exact iff_of_false (fun hcancelled => hstage (h.cancelled.1 hcancelled)) htimedOut

/-- `append_entry` has returned `True`. -/
theorem commit (h : CallOk applied pending k call) (hstage : call.stage = .appended) :
    CallOk applied pending k { call with stage := .waiting, inTime := call.applied } := by
  have hopen : call.isAppending = true := by simp [Call.isAppending, hstage]
  have hcancelled : call.future ≠ .cancelled := by
    intro hcancelled
    have htimedOut := h.cancelled.1 hcancelled
    rw [hstage] at htimedOut
    cases htimedOut
  refine ⟨h.named, h.since, fun hlive => ?_, fun _ => h.answers (.inl hopen),
    iff_of_false hcancelled (fun h => nomatch h), fun happlied => ⟨rfl, ?_⟩⟩
  · simp [Call.live, Call.isAppending] at hlive
  · -- a live call has not been applied
    have happlied' : call.applied = true := happlied
    cases hfuture : call.future with
    | unresolved =>
        have hlive : call.live = true := by simp [Call.live, hopen, hfuture, Future.isUnresolved]
        rw [(h.live hlive).1] at happlied'
        cases happlied'
    | resolved result => exact ⟨result, rfl⟩
    | cancelled => exact absurd hfuture hcancelled

/-- `wait_for` has given up. -/
theorem timeOut (h : CallOk applied pending k call) (hfuture : call.future = .unresolved) :
    CallOk applied pending k { call with stage := .timedOut, future := .cancelled } := by
  refine ⟨h.named, h.since, fun hlive => ?_, fun _ result hresult => ?_, iff_of_true rfl rfl,
    fun hinTime => ?_⟩
  · simp [Call.live, Call.isAppending] at hlive
  · cases hresult
  · obtain ⟨-, result, hresult⟩ := h.inTime hinTime
    rw [hfuture] at hresult
    cases hresult

end CallOk

/-! ### Waking -/

theorem not_live_wake (call : Call) (result : Result) : (call.wake result).live = false := by
  rw [Call.wake]
  split
  · simp [Call.live, Future.isUnresolved]
  · next h => simp [Call.live, h]

/-- A call is woken with an answer for its request, or nobody cares. -/
theorem CallOk.wake {applied : List Command} {pending : Dict String ℕ} {k : ℕ} {call : Call}
    (h : CallOk applied pending k call) {result : Result}
    (hresult : AnsweredBy applied call.since call.request.requestId result ∨ call.live = false) :
    CallOk applied pending k (call.wake result) := by
  rw [Call.wake]
  split
  · next hunresolved =>
      have hfuture : call.future = .unresolved := by
        cases hcase : call.future with
        | unresolved => rfl
        | resolved result => rw [hcase] at hunresolved; cases hunresolved
        | cancelled => rw [hcase] at hunresolved; cases hunresolved
      have hlate : call.inTime = true → False := by
        intro hinTime
        obtain ⟨-, result', hresolved⟩ := h.inTime hinTime
        rw [hfuture] at hresolved
        cases hresolved
      refine ⟨h.named, h.since, fun hlive => ?_, fun hopen result' hresolved => ?_, ?_,
        fun hinTime => ?_⟩
      · simp [Call.live, Future.isUnresolved] at hlive
      · rcases hopen with hopen | hinTime
        · refine Future.resolved.inj hresolved ▸ hresult.resolve_right fun hdead => ?_
          have happending : call.isAppending = true := hopen
          simp [Call.live, happending, hunresolved] at hdead
        · exact (hlate hinTime).elim
      · refine iff_of_false (fun h => nomatch h) fun hstage => ?_
        have hcancelled := h.cancelled.2 hstage
        rw [hfuture] at hcancelled
        cases hcancelled
      · exact (hlate hinTime).elim
  · exact h

/-- What `_apply_command` does when a call is filed under the id of the result. -/
theorem wake_of_filed {s : Callers} {result : Result} {id : String} {k : ℕ} {call : Call}
    (hid : result.requestId? = some id) (hnamed : id ≠ "") (hfiled : s.pending.get? id = some k)
    (hk : s.calls.get? k = some call) : s.wake (.ok result) =
      { s.setCall k (call.wake result) with pending := s.pending.erase id } := by
  simp only [Callers.wake, hid, if_neg hnamed, hfiled, hk]
  rfl

/-- **What a result does**: it wakes the call that is filed under its id, or nothing. -/
theorem wake_cases (s : Callers) (result : Except PyError Result) :
    s.wake result = s ∨ (∃ id, s.wake result = { s with pending := s.pending.erase id } ∧
      ∀ k ∈ s.pending.get? id, s.calls.get? k = none) ∨
    ∃ r id k call, result = .ok r ∧ r.requestId? = some id ∧ s.pending.get? id = some k ∧
      s.calls.get? k = some call ∧
      s.wake result = { s.setCall k (call.wake r) with pending := s.pending.erase id } := by
  cases result with
  | error e => exact .inl rfl
  | ok r =>
      cases hid : r.requestId? with
      | none => exact .inl (by simp only [Callers.wake, hid])
      | some id =>
          by_cases hempty : id = ""
          · exact .inl (by simp only [Callers.wake, hid, if_pos hempty])
          · cases hfiled : s.pending.get? id with
            | none => exact .inl (by simp only [Callers.wake, hid, if_neg hempty, hfiled])
            | some k =>
                cases hk : s.calls.get? k with
                | none =>
                    refine .inr (.inl ⟨id, ?_, fun k' hk' => ?_⟩)
                    · simp only [Callers.wake, hid, if_neg hempty, hfiled, hk]
                    · rw [hfiled] at hk'
                      exact Option.some.inj hk' ▸ hk
                | some call =>
                    exact .inr (.inr ⟨r, id, k, call, rfl, hid, hfiled, hk,
                      wake_of_filed hid hempty hfiled hk⟩)

/-- A result makes no call live. -/
theorem live_of_live_wake {s : Callers} {result : Except PyError Result} {k : ℕ}
    (h : (s.wake result).live k = true) : s.live k = true := by
  rcases wake_cases s result with hsame | ⟨id, hsame, -⟩ | ⟨r, id, k', call, -, -, -, hk, hwake⟩
  · rwa [hsame] at h
  · rwa [hsame] at h
  · rw [hwake] at h
    obtain ⟨c, hc, hlive⟩ := live_iff.1 h
    change (s.calls.set k' _).get? k = some c at hc
    rw [Dict.get?_set] at hc
    split at hc
    · rw [← Option.some.inj hc, not_live_wake] at hlive
      cases hlive
    · exact live_iff.2 ⟨c, hc, hlive⟩

namespace Inv

variable {s s' : Callers} {k : ℕ} {call : Call}

theorem wake (h : Inv s) {result : Except PyError Result}
    (hresult : ∀ r id k call, result = .ok r → r.requestId? = some id →
      s.pending.get? id = some k → s.calls.get? k = some call →
      AnsweredBy s.applied call.since id r ∨ s.live k = false) : Inv (s.wake result) := by
  rcases wake_cases s result with hsame | ⟨id, hsame, hnone⟩ |
    ⟨r, id, k, call, rfl, hid, hfiled, hk, hwake⟩
  · rwa [hsame]
  · rw [hsame]
    refine h.erase fun k hk => ?_
    rw [live, hnone k hk]
    rfl
  · obtain ⟨call', hcall, hname⟩ := h.filed id k hfiled
    obtain rfl := Option.some.inj (hk.symm.trans hcall)
    have hok : CallOk s.applied s.pending k (call.wake r) := by
      refine (h.call k call hk).wake ?_
      rw [hname]
      refine (hresult r id k call rfl hid hfiled hk).imp_right fun hdead => ?_
      rw [live, hk] at hdead
      exact hdead
    have hrequest : (call.wake r).request = call.request := by
      rw [Call.wake]
      split <;> rfl
    rw [hwake]
    refine (h.setCall hk hok hrequest).erase fun k' hk' => ?_
    -- the only call that was filed under the id is woken now
    obtain rfl := Option.some.inj (hfiled.symm.trans hk')
    rw [live_setCall, if_pos rfl]
    exact not_live_wake call r

/-- The command of a call that is not live has been applied. -/
theorem markApplied (h : Inv s) {entry : CallEntry}
    (hdead : ∀ k request, entry = .own k request → s.live k = false) :
    Inv (s.markApplied entry) := by
  cases entry with
  | other command => exact h
  | own k request =>
      rw [Callers.markApplied]
      split
      · exact h
      · next call hk =>
          have hok := h.call k call hk
          have hcall : call.live = false := by
            have hlive := hdead k request rfl
            rwa [live, hk] at hlive
          refine h.setCall hk
            ⟨hok.named, hok.since, fun hlive => ?_, hok.answers, hok.cancelled, hok.inTime⟩ rfl
          have hlive' : call.live = true := hlive
          rw [hcall] at hlive'
          cases hlive'

/-- The next entry is applied. -/
theorem apply (h : Inv s) {entry : CallEntry} {log : List CallEntry} (hlog : s.log = entry :: log)
    (hquiet : s.AppliesQuietly entry) (hstep : step s .apply = some s') : Inv s' := by
  simp only [step, hlog, Option.some.injEq] at hstep
  subst hstep
  have hnext : Inv { s with applied := s.applied ++ [entry.toCommand], log := log } := by
    refine ⟨?_, fun k request hmem => h.own k request ?_, h.filed,
      fun k call hk => (h.call k call hk).snoc _⟩
    · rw [lockState, applyAll_snoc]
      exact h.stored.step _
    · rw [hlog]
      exact List.mem_cons_of_mem _ hmem
  refine (hnext.wake fun r id k call hr hid hfiled hk => ?_).markApplied fun k request hown => ?_
  · rcases apply_answers h.stored hr hid with hstored | ⟨hnone, reason, habort⟩
    · -- the call was filed before this command was applied
      refine .inl ⟨s.applied, entry.toCommand, [], rfl, (h.call k call hk).since, hr, hid, ?_⟩
      rw [applyAll_snoc]
      exact hstored
    · cases entry with
      | own k request => cases habort
      | other command =>
          obtain rfl : command = .abort id reason := habort
          exact .inr (hquiet hnone k hfiled)
  · subst hown
    obtain ⟨call, hk, hrequest⟩ := h.own k request (hlog ▸ List.mem_cons_self)
    have hok := h.call k call hk
    by_contra halive
    have hawake := live_of_live_wake (Bool.eq_true_of_not_eq_false halive)
    have hlive : s.live k = true := hawake
    obtain ⟨call', hcall, hcall'⟩ := live_iff.1 hlive
    obtain rfl := Option.some.inj (hk.symm.trans hcall)
    -- its command does not raise, and the result wakes it
    have hraises := hquiet hlive
    have hfine : ¬ Failed s.lockState request.acquire := by
      rw [failed_acquire_iff]
      rintro ⟨hnew, hgrant, hexpiry⟩
      simp [raises, hnew, hgrant, hexpiry] at hraises
    cases hresult : (s.lockState.apply request.acquire).2 with
    | error e => exact hfine ⟨e, hresult⟩
    | ok r =>
        have hanswers : r.answers request.requestId := answers_applyAcquire h.stored hresult
        have hfiled := (hok.live hcall').2
        rw [hrequest] at hfiled
        have hnamed := hok.named
        rw [hrequest] at hnamed
        refine halive ?_
        simp only [CallEntry.toCommand, hresult]
        rw [@wake_of_filed
          { s with applied := s.applied ++ [request.acquire], log := log } r _ k call
          hanswers.requestId? hnamed hfiled hk]
        exact (live_setCall s k _ k).trans ((if_pos rfl).trans (not_live_wake call r))

/-- **Every undisturbed move keeps the invariant.** -/
theorem step {a : CallerAction} (h : Inv s) (hok : s.Undisturbed a) (hstep : s.step a = some s') :
    Inv s' := by
  cases a with
  | start k request =>
      obtain ⟨⟨hnamed, hnew⟩, hstep⟩ := Option.ite_none_right_eq_some.1 hstep
      obtain rfl := Option.some.inj hstep
      exact h.start hnamed (Option.isNone_iff_eq_none.1 hnew) hok
  | append k =>
      cases hk : s.calls.get? k with
      | none => simp [Callers.step, hk] at hstep
      | some call =>
          simp only [Callers.step, hk, Option.ite_none_right_eq_some, Option.some.injEq] at hstep
          obtain ⟨hstage, rfl⟩ := hstep
          have hnext := h.setCall hk ((h.call k call hk).append hstage) rfl
          refine ⟨hnext.stored, fun k' request hmem => ?_, hnext.filed, hnext.call⟩
          rcases List.mem_append.1 hmem with hmem | hlast
          · exact hnext.own k' request hmem
          · cases List.mem_singleton.1 hlast
            exact ⟨_, Dict.get?_set_self, rfl⟩
  | appendOther command =>
      obtain rfl := Option.some.inj hstep
      refine ⟨h.stored, fun k request hmem => h.own k request ?_, h.filed, h.call⟩
      simpa using hmem
  | apply =>
      cases hlog : s.log with
      | nil => simp [Callers.step, hlog] at hstep
      | cons entry log => exact h.apply hlog (hok entry (by rw [hlog]; rfl)) hstep
  | truncate length =>
      obtain rfl := Option.some.inj hstep
      exact h.withLog (List.take_subset length s.log)
  | committed k =>
      cases hk : s.calls.get? k with
      | none => simp [Callers.step, hk] at hstep
      | some call =>
          simp only [Callers.step, hk, Option.ite_none_right_eq_some, Option.some.injEq] at hstep
          obtain ⟨hstage, rfl⟩ := hstep
          exact h.setCall hk ((h.call k call hk).commit hstage) rfl
  | failed k =>
      cases hk : s.calls.get? k with
      | none => simp [Callers.step, hk] at hstep
      | some call =>
          simp only [Callers.step, hk, Option.ite_none_right_eq_some, Option.some.injEq] at hstep
          obtain ⟨hopen, rfl⟩ := hstep
          have hstage : call.stage ≠ .timedOut := by
            intro hstage
            simp [Call.isAppending, hstage] at hopen
          have hclosed : CallOk s.applied s.pending k { call with stage := .failed } :=
            (h.call k call hk).close hstage nofun nofun nofun
          refine (h.setCall hk hclosed rfl).erase fun k' hk' => ?_
          rw [live_setCall]
          split
          · rfl
          · next hne => exact hok call hk k' hk' hne
  | raised k =>
      cases hk : s.calls.get? k with
      | none => simp [Callers.step, hk] at hstep
      | some call =>
          simp only [Callers.step, hk, Option.ite_none_right_eq_some, Option.some.injEq] at hstep
          obtain ⟨hstage, rfl⟩ := hstep
          exact h.setCall hk ((h.call k call hk).close (by simp [hstage]) nofun nofun nofun) rfl
  | answer k =>
      cases hk : s.calls.get? k with
      | none => simp [Callers.step, hk] at hstep
      | some call =>
          simp only [Callers.step, hk] at hstep
          split at hstep
          · next hstage _ =>
              obtain rfl := Option.some.inj hstep
              exact h.setCall hk ((h.call k call hk).close (by simp [hstage]) nofun nofun nofun) rfl
          · cases hstep
  | timeout k =>
      cases hk : s.calls.get? k with
      | none => simp [Callers.step, hk] at hstep
      | some call =>
          simp only [Callers.step, hk] at hstep
          split at hstep
          · next hfuture =>
              obtain rfl := Option.some.inj hstep
              exact h.setCall hk ((h.call k call hk).timeOut hfuture) rfl
          · cases hstep

end Inv

/-- **Undisturbed callers get their results.**  In every run in which nobody takes the place of a
call that waits, each call whose command had been applied at this node when `append_entry` returned
`True` has its own future resolved with an answer of the state machine for its request, given since
the call was filed, and does not answer `timeout`. -/
theorem woken {s : Callers} (h : Run step Undisturbed initial s) : Woken s := by
  have hinv : Inv s := h.invariant (fun _ _ _ => Inv.step) Inv.initial
  intro k call hk hinTime
  have hok := hinv.call k call hk
  obtain ⟨-, result, hresult⟩ := hok.inTime hinTime
  refine ⟨fun hstage => ?_, result, hresult, hok.answers (.inr hinTime) result hresult⟩
  have hcancelled := hok.cancelled.2 hstage
  rw [hresult] at hcancelled
  cases hcancelled

/-! ### Two calls under one id -/

/-- Alice asks for a lock. -/
def aliceAsks (requestId : String) (createdAt : ℚ) : LockRequest :=
  ⟨requestId, "db", "alice", .exclusive, createdAt, .null⟩

/-- She asks again, with the same id, before her first call has an answer. -/
def asksAgain : List CallerAction :=
  [.start 0 (aliceAsks "r1" 0), .append 0, .start 1 (aliceAsks "r1" 1), .append 1, .apply, .apply,
    .committed 0, .committed 1, .answer 1, .timeout 0]

/-- Her command was applied when `append_entry` returned, and her first call answers `timeout`. -/
theorem woken_fails : ¬ ∀ s : Callers, Run step anyAction initial s → Woken s := by
  intro hall
  obtain ⟨s, hs, hcall⟩ := Run.exists_of_exec step anyAction initial asksAgain
    (fun s => ((s.calls.get? 0).any fun call => call.inTime && decide (call.stage = .timedOut)) =
      true) (by decide +kernel)
  obtain ⟨call, hk, hcall⟩ := (Option.any_eq_true _ _).1 hcall
  rw [Bool.and_eq_true, decide_eq_true_eq] at hcall
  exact (hall s hs 0 call hk hcall.1).1 hcall.2

/-- She asks twice, with different ids. -/
def asksTwice : List CallerAction :=
  [.start 0 (aliceAsks "r1" 0), .append 0, .start 1 (aliceAsks "r2" 1), .append 1, .apply, .apply,
    .committed 0, .committed 1, .answer 1, .answer 0]

/-- Both calls get their results. -/
theorem woken_asksTwice : ∃ s : Callers, Run step Undisturbed initial s ∧
    ∃ call result, s.calls.get? 0 = some call ∧ call.stage = .answered ∧
      call.future = .resolved result ∧ AnsweredBy s.applied 0 "r1" result := by
  obtain ⟨s, hs, hcall⟩ := Run.exists_of_exec step Undisturbed initial asksTwice
    (fun s => ((s.calls.get? 0).any fun call => call.inTime && decide (call.stage = .answered) &&
      decide (call.request.requestId = "r1") && decide (call.since = 0)) = true)
      (by decide +kernel)
  obtain ⟨call, hk, hcall⟩ := (Option.any_eq_true _ _).1 hcall
  simp only [Bool.and_eq_true, decide_eq_true_eq] at hcall
  obtain ⟨⟨⟨hinTime, hanswered⟩, hid⟩, hsince⟩ := hcall
  obtain ⟨-, result, hresult, hanswers⟩ := woken hs 0 call hk hinTime
  exact ⟨s, hs, call, result, hk, hanswered, hresult, hid ▸ hsince ▸ hanswers⟩

end Callers

end LockManager
