/-
**The tables agree.**

The state machine stores most facts twice.  A request that waits is in a queue, and is `waiting` in
the table of requests.  A client that holds a lock is among its holders, has an expiry there, and
the lock is in the set of the client.  Every command has to change both copies.

They agree until a grant raises, which has changed some of the tables by then and not the others.
It is not enough that `ttl_ms` is a number: an integer beyond the range of floats raises as well.
Commands whose `ttl_ms` fits a float, or is absent, are `LockManager.WellTimed`; none of them
raises.

Main definitions:

* `LockManager.WellTyped`, `LockManager.WellTimed` — the `ttl_ms` of an acquire is a number or
  absent, and the number fits a float;
* `LockManager.Mirrors` — the waiting requests are the queued ones;
* `LockManager.DropsWaiting` — a release takes a request from its queue and raises;
* `LockManager.HoldersAgree` — **the three tables of holders agree**;
* `LockManager.EntersHalf` — a command enters a holder without an expiry;
* `LockManager.SameHoldings` — two states in which the same clients hold the same locks.

Main results:

* `LockManager.statusesMirrorQueues_iff`, `LockManager.statusesMirrorQueues_fails` — **when a
  request is `waiting` exactly while it is queued**;
* `LockManager.holderTablesAgree_iff`, `LockManager.holderTablesAgree_fails` — **when the tables of
  holders agree**.
-/

import DistSync.LockExpiry
import DistSync.LockFairness
import DistSync.RunRules

set_option relaxedAutoImplicit false
set_option autoImplicit false

namespace LockManager

open LockStateMachine

/-! ### Expiries that can be computed -/

/-- The `ttl_ms` of an acquire is a number, or is absent. -/
def WellTyped : Command → Prop
  | .acquire _ _ _ _ ttlMs _ => ttlMs = .null ∨ ∃ ms, ttlMs = .num ms
  | _ => True

/-- The `ttl_ms` of an acquire is a number that fits a float, or is absent. -/
def WellTimed : Command → Prop
  | .acquire _ _ _ _ ttlMs _ =>
      ttlMs = .null ∨ ∃ ms, ttlMs = .num ms ∧ -Json.floatLimit < ms ∧ ms < Json.floatLimit
  | _ => True

theorem isSome_expiry?_of_wellTimed {request : LockRequest} (h : WellTimed request.acquire) :
    (expiry? request).isSome = true := by
  rcases h with hnull | ⟨ms, hms, hfits⟩
  · simp [expiry?, hnull, Json.truthy]
  · rw [expiry?, hms, Json.float?, if_pos hfits]
    split <;> rfl

/-- The expiries of the queued requests can be computed. -/
def QueuesTimed (sm : LockStateMachine) : Prop :=
  ∀ name, ∀ request ∈ (sm.lockState name).queue, (expiry? request).isSome = true

theorem QueuesTimed.step {sm : LockStateMachine} (h : QueuesTimed sm) {command : Command}
    (hcommand : WellTimed command) : QueuesTimed (sm.apply command).1 := by
  intro name request hq
  rcases (apply_lockMoves sm name command).queue hq with hq | ⟨hname, heq⟩
  · exact h name request hq
  · subst hname
    rw [heq] at hcommand
    exact isSome_expiry?_of_wellTimed hcommand

theorem queuesTimed_applyAll {commands : List Command}
    (h : ∀ command ∈ commands, WellTimed command) : QueuesTimed (applyAll commands) := by
  induction commands using List.reverseRecOn with
  | nil =>
      intro name request hq
      cases hq
  | append_singleton commands command ih =>
      rw [applyAll_snoc]
      have hlast := h command (List.mem_append_right _ (List.mem_singleton_self _))
      exact (ih fun c hc => h c (List.mem_append_left _ hc)).step hlast

/-! ### Requests that wait -/

/-- Taking out the element that a search finds. -/
theorem perm_eraseP_of_find? {α : Type} {p : α → Bool} {l : List α} {a : α}
    (h : l.find? p = some a) : l.Perm (a :: l.eraseP p) := by
  induction l with
  | nil => cases h
  | cons b l ih =>
      by_cases hb : p b = true
      · rw [List.find?_cons_of_pos hb] at h
        rw [List.eraseP_cons_of_pos hb, Option.some.inj h]
      · rw [List.find?_cons_of_neg hb] at h
        rw [List.eraseP_cons_of_neg hb]
        exact ((ih h).cons b).trans (List.Perm.swap a b _)

/-- **The waiting requests are the queued ones**, with the same data. -/
structure Mirrors (sm : LockStateMachine) : Prop where
  queued : ∀ name, ∀ r ∈ (sm.lockState name).queue,
    sm.requests.get? r.requestId = some (.waiting r.info)
  waiting : ∀ id info, sm.requests.get? id = some (.waiting info) →
    ∃ name, ∃ r ∈ (sm.lockState name).queue, r.requestId = id ∧ r.info = info

/-- **The release takes a request from the queue that it cannot grant**: its expiry cannot be
computed. -/
def DropsWaiting (sm : LockStateMachine) : Command → Prop
  | .release lock clientId => (sm.lockState lock).heldBy clientId ∧
      ∃ r ∈ (takeGranted ((sm.lockState lock).leave clientId)).1, expiry? r = none
  | _ => False

namespace Mirrors

variable {sm sm' : LockStateMachine} {command : Command} {arrived : Option LockRequest}

theorem empty : Mirrors ∅ where
  queued := fun name r hr => by cases hr
  waiting := fun id info h => by cases h

/-- A new id is not queued. -/
theorem ne_of_new (h : Mirrors sm) {id name : String} (hnew : sm.requests.get? id = none)
    {r : LockRequest} (hr : r ∈ (sm.lockState name).queue) : r.requestId ≠ id := by
  rintro rfl
  rw [h.queued name r hr] at hnew
  cases hnew

/-- A request that arrives is granted, or is queued and waits. -/
theorem grant (h : Mirrors sm) {request : LockRequest}
    (hnew : sm.requests.get? request.requestId = none)
    (hstored : ∀ id, sm'.requests.get? id =
      if id = request.requestId then some (.granted request.info) else sm.requests.get? id)
    (hqueue : ∀ name, (sm'.lockState name).queue = (sm.lockState name).queue) : Mirrors sm' where
  queued name r hr := by
    rw [hqueue] at hr
    rw [hstored, if_neg (h.ne_of_new hnew hr), h.queued name r hr]
  waiting id info hwait := by
    rw [hstored] at hwait
    split at hwait
    · cases hwait
    · simpa only [hqueue] using h.waiting id info hwait

theorem wait (h : Mirrors sm) {request : LockRequest}
    (hnew : sm.requests.get? request.requestId = none)
    (hstored : ∀ id, sm'.requests.get? id =
      if id = request.requestId then some (.waiting request.info) else sm.requests.get? id)
    (hqueue : ∀ name, (sm'.lockState name).queue =
      if name = request.lockName then (sm.lockState name).queue ++ [request]
      else (sm.lockState name).queue) : Mirrors sm' where
  queued name r hr := by
    have hcases : r ∈ (sm.lockState name).queue ∨ r = request := by
      rw [hqueue] at hr
      split at hr
      · simpa using hr
      · exact .inl hr
    rcases hcases with hr | rfl
    · rw [hstored, if_neg (h.ne_of_new hnew hr), h.queued name r hr]
    · rw [hstored, if_pos rfl]
  waiting id info hwait := by
    rw [hstored] at hwait
    split at hwait
    · next hid =>
        obtain rfl := Result.waiting.inj (Option.some.inj hwait)
        refine ⟨request.lockName, request, ?_, hid.symm, rfl⟩
        rw [hqueue, if_pos rfl]
        exact List.mem_append_right _ (List.mem_singleton_self _)
    · obtain ⟨name, r, hr, hid, hinfo⟩ := h.waiting id info hwait
      refine ⟨name, r, ?_, hid, hinfo⟩
      rw [hqueue]
      split
      · exact List.mem_append_left _ hr
      · exact hr

/-- Requests are taken out of one queue, and what is stored for them changes. -/
theorem take (h : Mirrors sm) (honce : QueuedOnce sm) {name : String}
    {taken rest : List LockRequest} (hperm : (sm.lockState name).queue.Perm (taken ++ rest))
    (htaken : ∀ r ∈ taken, ∀ info, sm'.requests.get? r.requestId ≠ some (.waiting info))
    (hstored : ∀ id, (∀ r ∈ taken, r.requestId ≠ id) →
      sm'.requests.get? id = sm.requests.get? id)
    (hqueue : ∀ name', (sm'.lockState name').queue =
      if name' = name then rest else (sm.lockState name').queue) : Mirrors sm' where
  queued name' r hr := by
    have hold : r ∈ (sm.lockState name').queue := by
      rw [hqueue] at hr
      split at hr
      · next hname => exact hname ▸ hperm.symm.subset (List.mem_append_right _ hr)
      · exact hr
    rw [hstored, h.queued name' r hold]
    intro r' hr' hid
    -- a request with the id of one that was taken would be in the same queue, a second time
    have hr'' := hperm.symm.subset (List.mem_append_left rest hr')
    obtain rfl := honce.apart r' hr'' r hold hid
    rw [hqueue, if_pos rfl] at hr
    have hnodup := ((hperm.map (·.requestId)).nodup_iff.1 (honce.nodup name))
    rw [List.map_append, List.nodup_append] at hnodup
    exact hnodup.2.2 _ (List.mem_map_of_mem hr') _ (List.mem_map_of_mem hr) hid
  waiting id info hwait := by
    have hnot : ∀ r ∈ taken, r.requestId ≠ id := by
      rintro r hr rfl
      exact htaken r hr info hwait
    rw [hstored id hnot] at hwait
    obtain ⟨name', r, hr, hid, hinfo⟩ := h.waiting id info hwait
    refine ⟨name', r, ?_, hid, hinfo⟩
    rw [hqueue]
    split
    · next hname =>
        subst hname
        exact (List.mem_append.1 (hperm.subset hr)).resolve_left fun hmem => hnot r hmem hid
    · exact hr

/-- **A command that drops no request keeps the queues and the answers together.** -/
theorem step (h : Mirrors sm) (honce : QueuedOnce sm) (hnot : ¬ DropsWaiting sm command)
    (hserves : Serves sm sm' command arrived) : Mirrors sm' := by
  cases hserves with
  | same hnothing hstored hqueue =>
      refine ⟨fun name r hr => ?_, fun id info hwait => ?_⟩
      · rw [hqueue] at hr
        rw [hstored, h.queued name r hr]
      · rw [hstored] at hwait
        simpa only [hqueue] using h.waiting id info hwait
  | grant request hnew hgrant hexpiry hstored hqueue => exact h.grant hnew hstored hqueue
  | wait request hnew hgrant hstored hqueue => exact h.wait hnew hstored hqueue
  | release lock clientId granted dropped rest hheld htake hexpiry hdropped hgranted hstored
      hqueue =>
      have hqueue' := Serves.queue_eq htake
      cases dropped with
      | nil =>
          rw [List.append_nil] at hqueue'
          refine h.take honce (List.Perm.of_eq hqueue') (fun r hr info hwait => ?_) hstored hqueue
          obtain ⟨info', hinfo⟩ := hgranted r hr
          rw [hinfo] at hwait
          cases hwait
      | cons r dropped =>
          refine absurd ⟨hheld, r, ?_, hdropped r rfl⟩ hnot
          rw [htake]
          exact List.mem_append_right _ List.mem_cons_self
  | abort requestId reason name request hfind haborted hstored hqueue =>
      have hid : request.requestId = requestId := by simpa using List.find?_some hfind
      have hperm : (sm.lockState name).queue.Perm
          ([request] ++ (sm.lockState name).queue.eraseP (·.requestId = requestId)) :=
        perm_eraseP_of_find? hfind
      refine h.take honce hperm (fun r hr info hwait => ?_) (fun id hnot => ?_) fun name' => ?_
      · obtain rfl := List.mem_singleton.1 hr
        obtain ⟨lock, clientId, reason', haborted⟩ := haborted
        rw [hid, haborted] at hwait
        cases hwait
      · exact hstored id fun h => hnot request (List.mem_singleton_self _) (hid.trans h.symm)
      · rw [hqueue]
        split
        · next hname => rw [hname]
        · rfl

/-- A request that is dropped is `waiting` and in no queue. -/
theorem not_drops (h : Mirrors sm) (honce : QueuedOnce sm)
    (hserves : Serves sm sm' command arrived) (h' : Mirrors sm') : ¬ DropsWaiting sm command := by
  cases hserves with
  | same hnothing hstored hqueue =>
      cases command with
      | release lock clientId => exact fun hdrops => hnothing hdrops.1
      | acquire requestId lock clientId mode ttlMs createdAt => exact id
      | abort requestId reason => exact id
      | other op => exact id
  | grant request hnew hgrant hexpiry hstored hqueue => exact id
  | wait request hnew hgrant hstored hqueue => exact id
  | abort requestId reason name request hfind haborted hstored hqueue => exact id
  | release lock clientId granted dropped rest hheld htake hexpiry hdropped hgranted hstored
      hqueue =>
      rintro ⟨-, raising, hraising, hnone⟩
      rw [htake] at hraising
      cases dropped with
      | nil =>
          have hsome := hexpiry raising (by simpa using hraising)
          rw [hnone] at hsome
          cases hsome
      | cons r dropped =>
          have hqueue' := Serves.queue_eq htake
          have hmem : r ∈ (sm.lockState lock).queue := by
            rw [hqueue']
            exact List.mem_append_left _ (List.mem_append_right _ List.mem_cons_self)
          -- its id occurs once in the queue, so it is neither granted nor left there
          have hnodup := honce.nodup lock
          rw [hqueue'] at hnodup
          simp only [List.map_append, List.map_cons, List.append_assoc, List.cons_append,
            List.nodup_append, List.nodup_cons, List.mem_append] at hnodup
          obtain ⟨-, ⟨hrest, -⟩, hgranted'⟩ := hnodup
          have hwait : sm'.requests.get? r.requestId = some (.waiting r.info) := by
            rw [hstored _ fun g hg => hgranted' _ (List.mem_map_of_mem hg) _ List.mem_cons_self]
            exact h.queued lock r hmem
          obtain ⟨name, r', hr', hid, -⟩ := h'.waiting _ _ hwait
          rw [hqueue] at hr'
          split at hr'
          · exact hrest (.inr (hid ▸ List.mem_map_of_mem hr'))
          · next hname => exact hname (honce.apart r' hr' r hmem hid)

end Mirrors

/-- Commands with a `ttl_ms` that fits a float drop no request. -/
theorem QueuesTimed.not_drops {sm : LockStateMachine} (h : QueuesTimed sm) (command : Command) :
    ¬ DropsWaiting sm command := by
  cases command with
  | release lock clientId =>
      rintro ⟨-, r, hr, hnone⟩
      have hqueue := takeGranted_append ((sm.lockState lock).leave clientId)
      have hmem : r ∈ (sm.lockState lock).queue := by
        rw [show (sm.lockState lock).queue = _ from hqueue.symm]
        exact List.mem_append_left _ hr
      have hsome := h lock r hmem
      rw [hnone] at hsome
      cases hsome
  | acquire requestId lock clientId mode ttlMs createdAt => exact id
  | abort requestId reason => exact id
  | other op => exact id

theorem mirrors_applyAll {commands : List Command}
    (h : ∀ command ∈ commands, WellTimed command) : Mirrors (applyAll commands) := by
  induction commands using List.reverseRecOn with
  | nil => exact Mirrors.empty
  | append_singleton commands command ih =>
      have hinit := fun c hc => h c (List.mem_append_left _ hc)
      rw [applyAll_snoc]
      exact (ih hinit).step (queuedOnce_applyAll commands)
        ((queuesTimed_applyAll hinit).not_drops command) (apply_serves _ command)

/-! ### Statuses -/

/-- The `status` of an answer. -/
def Result.status : Result → String
  | .granted _ => "granted"
  | .waiting _ => "waiting"
  | .aborted _ _ _ _ => "aborted"
  | .released _ _ => "released"
  | .notHeld _ _ => "not_held"
  | .notFound _ => "not_found"
  | .error _ => "error"

/-- `requests[id].status`. -/
def LockStateMachine.status? (sm : LockStateMachine) (id : String) : Option String :=
  (sm.requests.get? id).map Result.status

theorem status_eq_waiting_iff {result : Result} :
    result.status = "waiting" ↔ ∃ info, result = .waiting info := by
  cases result <;> simp [Result.status]

theorem status?_eq_waiting_iff {sm : LockStateMachine} {id : String} :
    sm.status? id = some "waiting" ↔ ∃ info, sm.requests.get? id = some (.waiting info) := by
  simp only [status?, Option.map_eq_some_iff, status_eq_waiting_iff]
  constructor
  · rintro ⟨result, hresult, info, rfl⟩
    exact ⟨info, hresult⟩
  · rintro ⟨info, hinfo⟩
    exact ⟨_, hinfo, info, rfl⟩

/-- The statuses of `sm'` are those of `sm`, or have moved forward from `waiting`. -/
def StatusesForward (sm sm' : LockStateMachine) : Prop :=
  ∀ id status, sm.status? id = some status → sm'.status? id = some status ∨
    status = "waiting" ∧ (sm'.status? id = some "granted" ∨ sm'.status? id = some "aborted")

/-- **A status moves forward**, from `waiting` to `granted` or to `aborted`. -/
theorem Serves.status {sm sm' : LockStateMachine} {command : Command}
    {arrived : Option LockRequest} (hserves : Serves sm sm' command arrived)
    {requests : List LockRequest} (h : Served sm requests) : StatusesForward sm sm' := by
  intro id status hstatus
  have hsame : sm'.requests.get? id = sm.requests.get? id → sm'.status? id = some status := by
    intro hstored
    rw [status?, hstored]
    exact hstatus
  have hwaiting : ∀ name, ∀ r ∈ (sm.lockState name).queue, r.requestId = id →
      status = "waiting" := by
    rintro name r hr rfl
    obtain ⟨info, hinfo⟩ := isWaiting_iff.1 (h.of_mem_queue hr).2.2
    rw [status?, hinfo] at hstatus
    exact (Option.some.inj hstatus).symm
  cases hserves with
  | same hnothing hstored hqueue => exact .inl (hsame (hstored id))
  | grant request hnew hgrant hexpiry hstored hqueue =>
      refine .inl (hsame ((hstored id).trans (if_neg ?_)))
      rintro rfl
      rw [status?, hnew] at hstatus
      cases hstatus
  | wait request hnew hgrant hstored hqueue =>
      refine .inl (hsame ((hstored id).trans (if_neg ?_)))
      rintro rfl
      rw [status?, hnew] at hstatus
      cases hstatus
  | release lock clientId granted dropped rest hheld htake hexpiry hdropped hgranted hstored
      hqueue =>
      by_cases hid : ∃ r ∈ granted, r.requestId = id
      · obtain ⟨r, hr, hid⟩ := hid
        have hmem : r ∈ (sm.lockState lock).queue := by
          rw [Serves.queue_eq htake]
          exact List.mem_append_left _ (List.mem_append_left _ hr)
        obtain ⟨info, hinfo⟩ := hgranted r hr
        refine .inr ⟨hwaiting lock r hmem hid, .inl ?_⟩
        rw [status?, ← hid, hinfo]
        rfl
      · exact .inl (hsame (hstored id fun r hr h => hid ⟨r, hr, h⟩))
  | abort requestId reason name request hfind haborted hstored hqueue =>
      by_cases hid : id = requestId
      · subst hid
        have hid' : request.requestId = id := by simpa using List.find?_some hfind
        obtain ⟨lock, clientId, reason', haborted⟩ := haborted
        refine .inr ⟨hwaiting name request (List.mem_of_find?_eq_some hfind) hid', .inr ?_⟩
        rw [status?, haborted]
        rfl
      · exact .inl (hsame (hstored id hid))

theorem statusesForward_applyAll (commands : List Command) (command : Command) :
    StatusesForward (applyAll commands) (applyAll (commands ++ [command])) := by
  rw [applyAll_snoc]
  exact (apply_serves _ command).status (served_applyAll commands)

/-- How often an id is in the queue of a lock. -/
def LockState.occurrences (state : LockState) (id : String) : ℕ :=
  (state.queue.map (·.requestId)).count id

/-- **The statuses mirror the queues**: a request is `waiting` if and only if it is in a queue, and
then it is in the queue of its lock once, and in no other. -/
def StatusesMirror (sm : LockStateMachine) : Prop :=
  (∀ id, sm.status? id = some "waiting" ↔
    ∃ name, ∃ r ∈ (sm.lockState name).queue, r.requestId = id) ∧
  ∀ id info, sm.requests.get? id = some (.waiting info) →
    (sm.lockState info.lock).occurrences id = 1 ∧
    ∀ name, name ≠ info.lock → (sm.lockState name).occurrences id = 0

/-- What waits is in a queue, and was stored with the data of the queued request. -/
theorem mirrors_iff (commands : List Command) :
    Mirrors (applyAll commands) ↔ StatusesMirror (applyAll commands) := by
  have honce := queuedOnce_applyAll commands
  have hserved := served_applyAll commands
  -- what is stored for a request that waits are its own data
  have hinfo : ∀ name, ∀ r ∈ ((applyAll commands).lockState name).queue,
      (applyAll commands).requests.get? r.requestId = some (.waiting r.info) := by
    intro name r hr
    obtain ⟨hmem, -, hwaits⟩ := hserved.of_mem_queue hr
    obtain ⟨info, hinfo⟩ := isWaiting_iff.1 hwaits
    obtain ⟨r', hr', hid, rfl⟩ := hserved.stored _ _ hinfo
    rw [hinfo, hserved.unique hr' hmem hid]
  constructor
  · intro hmirrors
    refine ⟨fun id => ?_, fun id info hwait => ?_⟩
    · rw [status?_eq_waiting_iff]
      constructor
      · rintro ⟨info, hwait⟩
        obtain ⟨name, r, hr, hid, -⟩ := hmirrors.waiting id info hwait
        exact ⟨name, r, hr, hid⟩
      · rintro ⟨name, r, hr, rfl⟩
        exact ⟨r.info, hinfo name r hr⟩
    · obtain ⟨name, r, hr, rfl, rfl⟩ := hmirrors.waiting id info hwait
      have hlock : r.info.lock = name := queuedAtOwnLock_applyAll commands name r hr
      rw [hlock]
      refine ⟨List.count_eq_one_of_mem (honce.nodup name) (List.mem_map_of_mem hr),
        fun name' hname => List.count_eq_zero_of_not_mem fun hmem => ?_⟩
      obtain ⟨r', hr', hid⟩ := List.mem_map.1 hmem
      exact hname (honce.apart r' hr' r hr hid)
  · rintro ⟨hwaiting, -⟩
    refine ⟨hinfo, fun id info hwait => ?_⟩
    obtain ⟨name, r, hr, rfl⟩ := (hwaiting id).1 (status?_eq_waiting_iff.2 ⟨info, hwait⟩)
    rw [hinfo name r hr] at hwait
    exact ⟨name, r, hr, rfl, Result.waiting.inj (Option.some.inj hwait)⟩

/-- **Statuses mirror the queues and only move forward**, after each command of a sequence. -/
def StatusesMirrorQueues (commands : List Command) : Prop :=
  (∀ pre, pre <+: commands → StatusesMirror (applyAll pre)) ∧
  ∀ pre command, pre ++ [command] <+: commands →
    StatusesForward (applyAll pre) (applyAll (pre ++ [command]))

/-- **When the statuses mirror the queues and only move forward**: if and only if no release of the
sequence drops a request. -/
theorem statusesMirrorQueues_iff (commands : List Command) :
    StatusesMirrorQueues commands ↔
      ∀ pre command, pre ++ [command] <+: commands → ¬ DropsWaiting (applyAll pre) command := by
  rw [StatusesMirrorQueues,
    and_iff_left fun pre command _ => statusesForward_applyAll pre command]
  refine Runs.forall_prefix_iff (P := fun pre => StatusesMirror (applyAll pre)) ?_
    fun pre command _ hmirror => ?_
  · exact (mirrors_iff []).1 Mirrors.empty
  · rw [← mirrors_iff] at hmirror ⊢
    rw [applyAll_snoc]
    have honce := queuedOnce_applyAll pre
    exact ⟨hmirror.not_drops honce (apply_serves _ command),
      fun hnot => hmirror.step honce hnot (apply_serves _ command)⟩

/-- Bob waits for Alice's lock, with a `ttl_ms` that is an integer beyond the range of floats. -/
def hugeTtl : List Command :=
  [.acquire "r1" "db" "alice" .exclusive .null 0,
    .acquire "r2" "db" "bob" .exclusive (.num Json.floatLimit) 1, .release "db" "alice"]

/-- When Alice has left, he is `waiting` in no queue. -/
theorem statusesMirrorQueues_fails :
    ¬ ∀ commands : List Command, (∀ command ∈ commands, WellTyped command) →
      StatusesMirrorQueues commands := by
  intro hall
  have htyped : ∀ command ∈ hugeTtl, WellTyped command := by simp [hugeTtl, WellTyped]
  have hmirror := (hall hugeTtl htyped).1 hugeTtl (List.prefix_refl _)
  have honce := (hmirror.2 "r2" ⟨"r2", "db", "bob", .exclusive⟩ rfl).1
  exact absurd honce (by decide)

/-! ### Holders -/

/-- `held_by_client`, where no set is the empty set. -/
def LockStateMachine.heldOf (sm : LockStateMachine) (client : String) : Finset String :=
  (sm.heldByClient.get? client).getD ∅

/-- **The three tables of holders agree.** -/
structure HoldersAgree (sm : LockStateMachine) : Prop where
  expiry : ∀ name client, client ∈ (sm.lockState name).holderExpiry.keys ↔
    client ∈ (sm.lockState name).holders.keys
  client : ∀ client name, name ∈ sm.heldOf client ↔ client ∈ (sm.lockState name).holders.keys

/-- The same clients hold the same locks, in the same modes and for the same time. -/
structure SameHoldings (sm sm' : LockStateMachine) : Prop where
  holders : ∀ name, (sm'.lockState name).holders = (sm.lockState name).holders
  expiry : ∀ name, (sm'.lockState name).holderExpiry = (sm.lockState name).holderExpiry
  client : sm'.heldByClient = sm.heldByClient

namespace SameHoldings

variable {sm sm' sm'' : LockStateMachine}

theorem refl (sm : LockStateMachine) : SameHoldings sm sm := ⟨fun _ => rfl, fun _ => rfl, rfl⟩

theorem trans (h : SameHoldings sm sm') (h' : SameHoldings sm' sm'') : SameHoldings sm sm'' where
  holders name := (h'.holders name).trans (h.holders name)
  expiry name := (h'.expiry name).trans (h.expiry name)
  client := h'.client.trans h.client

/-- A lock may get another queue. -/
theorem setQueue (sm : LockStateMachine) (name : String) (queue : List LockRequest) :
    SameHoldings sm (sm.setLock name { sm.lockState name with queue := queue }) where
  holders name' := by
    rw [lockState_setLock]
    split
    · next h => rw [h]
    · rfl
  expiry name' := by
    rw [lockState_setLock]
    split
    · next h => rw [h]
    · rfl
  client := rfl

/-- A lock may get an entry. -/
theorem setdefault (sm : LockStateMachine) (name : String) :
    SameHoldings sm { sm with locks := sm.locks.setdefault name ∅ } where
  holders name' := by rw [lockState_setdefault]
  expiry name' := by rw [lockState_setdefault]
  client := rfl

/-- The stored answers do not matter. -/
theorem withRequests (h : SameHoldings sm sm') (requests : Dict String Result) :
    SameHoldings sm { sm' with requests := requests } :=
  ⟨h.holders, h.expiry, h.client⟩

theorem agree (h : SameHoldings sm sm') (hagree : HoldersAgree sm) : HoldersAgree sm' where
  expiry name client := by rw [h.expiry, h.holders, hagree.expiry]
  client client name := by rw [heldOf, h.client, ← heldOf, h.holders, hagree.client]

end SameHoldings

/-- **An abort revokes nothing.** -/
theorem sameHoldings_abort (sm : LockStateMachine) (requestId : String) (reason : Option String) :
    SameHoldings sm (sm.apply (.abort requestId reason)).1 := by
  simp only [apply, applyAbort]
  split
  · exact .refl sm
  · next name state request hfound =>
      obtain ⟨rfl, -⟩ := findQueued_lock hfound
      exact (SameHoldings.setQueue sm name _).withRequests _

theorem mem_keys_set {α : Type} {d : Dict String α} {k k' : String} {v : α} :
    k' ∈ (d.set k v).keys ↔ k' = k ∨ k' ∈ d.keys := by
  simp only [Dict.mem_keys_iff, Dict.get?_set]
  by_cases h : k' = k <;> simp [h]

theorem mem_keys_erase {α : Type} {d : Dict String α} {k k' : String} :
    k' ∈ (d.erase k).keys ↔ k' ≠ k ∧ k' ∈ d.keys := by
  simp only [Dict.mem_keys_iff, Dict.get?_erase]
  by_cases h : k' = k <;> simp [h]

/-- What `_grant_request` does to the lock when the expiry can be computed. -/
theorem hold_of_expiry? (state : LockState) {request : LockRequest} {expiry : Option ℚ}
    (hexpiry : expiry? request = some expiry) :
    (state.hold request).1 = { state with
      holders := state.holders.set request.clientId request.mode
      holderExpiry := state.holderExpiry.set request.clientId expiry } := by
  simp only [LockState.hold, hexpiry]

/-- What `_grant_request` does to the set of the client when the expiry can be computed. -/
theorem heldByClient_grantRequest (sm : LockStateMachine) (name : String) {request : LockRequest}
    (hexpiry : (expiry? request).isSome = true) :
    (sm.grantRequest name request).1.heldByClient =
      sm.heldByClient.set request.clientId
        (insert request.lockName (sm.heldOf request.clientId)) := by
  have hcompleted := hold_snd (sm.lockState name) request
  rw [hexpiry] at hcompleted
  simp only [LockStateMachine.grantRequest, hcompleted, if_true, heldOf]
  rfl

/-- What `_grant_request` leaves behind when it raises. -/
theorem grantRequest_of_expiry?_eq_none (sm : LockStateMachine) (name : String)
    {request : LockRequest} (hexpiry : expiry? request = none) :
    sm.grantRequest name request = (sm.setLock name { sm.lockState name with
      holders := (sm.lockState name).holders.set request.clientId request.mode }, false) := by
  simp [grantRequest, LockState.hold, hexpiry]

theorem heldBy_iff_mem_keys {state : LockState} {client : String} :
    state.heldBy client ↔ client ∈ state.holders.keys := by
  rw [Dict.mem_keys_iff, LockState.heldBy, Option.isSome_iff_exists]

theorem heldBy_hold_iff {state : LockState} {request : LockRequest} {client : String} :
    (state.hold request).1.heldBy client ↔ client = request.clientId ∨ state.heldBy client := by
  rw [heldBy_iff_mem_keys, hold_holders, mem_keys_set, heldBy_iff_mem_keys]

/-! ### Holders without an expiry -/

/-- **One of the requests cannot be granted when its turn comes**, after those in front of it, and
its client does not hold the lock by then. -/
def HalfGrants (state : LockState) (granted : List LockRequest) : Prop :=
  ∃ front r back, granted = front ++ r :: back ∧
    (∀ r' ∈ front, expiry? r' ≠ none ∧ r'.clientId ≠ r.clientId) ∧
    expiry? r = none ∧ ¬ state.heldBy r.clientId

/-- **The command enters a holder without an expiry**: an acquire that is granted, or a release that
grants from the queue, comes to an expiry that cannot be computed, for a client that does not hold
the lock yet. -/
def EntersHalf (sm : LockStateMachine) : Command → Prop
  | .acquire requestId lock clientId mode ttlMs createdAt =>
      let request : LockRequest := ⟨requestId, lock, clientId, mode, createdAt, ttlMs⟩
      sm.requests.get? requestId = none ∧ canGrant (sm.lockState lock) request = true ∧
        expiry? request = none ∧ ¬ (sm.lockState lock).heldBy clientId
  | .release lock clientId => (sm.lockState lock).heldBy clientId ∧
      HalfGrants ((sm.lockState lock).leave clientId)
        (takeGranted ((sm.lockState lock).leave clientId)).1
  | _ => False

theorem not_halfGrants_nil {state : LockState} : ¬ HalfGrants state [] := by
  rintro ⟨front, r, back, heq, -⟩
  simp at heq

/-- The first request raises. -/
theorem halfGrants_cons_of_none {state : LockState} {request : LockRequest}
    {granted : List LockRequest} (hexpiry : expiry? request = none) :
    HalfGrants state (request :: granted) ↔ ¬ state.heldBy request.clientId := by
  constructor
  · rintro ⟨front, r, back, heq, hfront, -, hfree⟩
    cases front with
    | nil =>
        obtain ⟨rfl, -⟩ := List.cons_eq_cons.1 heq
        exact hfree
    | cons r' front =>
        obtain ⟨rfl, -⟩ := List.cons_eq_cons.1 heq
        exact absurd hexpiry (hfront request List.mem_cons_self).1
  · intro hfree
    exact ⟨[], request, granted, rfl, by simp, hexpiry, hfree⟩

/-- The first request is granted. -/
theorem halfGrants_cons_of_some {state : LockState} {request : LockRequest}
    {granted : List LockRequest} (hexpiry : (expiry? request).isSome = true) :
    HalfGrants state (request :: granted) ↔ HalfGrants (state.hold request).1 granted := by
  have hne : expiry? request ≠ none := Option.isSome_iff_ne_none.1 hexpiry
  constructor
  · rintro ⟨front, r, back, heq, hfront, hnone, hfree⟩
    cases front with
    | nil =>
        obtain ⟨rfl, -⟩ := List.cons_eq_cons.1 heq
        exact absurd hnone hne
    | cons r' front =>
        obtain ⟨rfl, rfl⟩ := List.cons_eq_cons.1 heq
        refine ⟨front, r, back, rfl, fun q hq => hfront q (List.mem_cons_of_mem _ hq), hnone, ?_⟩
        rw [heldBy_hold_iff, not_or]
        exact ⟨fun heq => (hfront request List.mem_cons_self).2 heq.symm, hfree⟩
  · rintro ⟨front, r, back, rfl, hfront, hnone, hfree⟩
    rw [heldBy_hold_iff, not_or] at hfree
    refine ⟨request :: front, r, back, rfl, fun q hq => ?_, hnone, hfree.2⟩
    rcases List.mem_cons.1 hq with rfl | hq
    · exact ⟨hne, fun heq => hfree.1 heq.symm⟩
    · exact hfront q hq

namespace HoldersAgree

variable {sm : LockStateMachine} {name : String}

theorem empty : HoldersAgree ∅ where
  expiry := fun _ _ => Iff.rfl
  client := fun _ _ => iff_of_false (Finset.notMem_empty _) List.not_mem_nil

/-- A grant whose expiry can be computed enters the client in all tables. -/
theorem grantRequest (h : HoldersAgree sm) {request : LockRequest}
    (hname : request.lockName = name) (hexpiry : (expiry? request).isSome = true) :
    HoldersAgree (sm.grantRequest name request).1 := by
  obtain ⟨expiry, hsome⟩ := Option.isSome_iff_exists.1 hexpiry
  refine ⟨fun name' client => ?_, fun client name' => ?_⟩
  · rw [lockState_grantRequest]
    split
    · rw [hold_of_expiry? _ hsome, mem_keys_set, mem_keys_set, h.expiry]
    · exact h.expiry name' client
  · rw [heldOf, heldByClient_grantRequest sm name hexpiry, Dict.get?_set, lockState_grantRequest]
    by_cases hlock : name' = name
    · subst hlock
      rw [if_pos rfl, hold_of_expiry? _ hsome, mem_keys_set, ← h.client]
      by_cases hclient : client = request.clientId
      · rw [if_pos hclient, Option.getD_some, hname]
        simp [hclient]
      · rw [if_neg hclient, ← heldOf]
        simp [hclient]
    · rw [if_neg hlock, ← h.client]
      by_cases hclient : client = request.clientId
      · subst hclient
        rw [if_pos rfl, Option.getD_some, Finset.mem_insert, hname]
        simp [hlock]
      · rw [if_neg hclient, ← heldOf]

theorem withRequests (h : HoldersAgree sm) (requests : Dict String Result) :
    HoldersAgree { sm with requests := requests } :=
  ((SameHoldings.refl sm).withRequests requests).agree h

/-- A grant that raises enters the client among the holders alone. -/
theorem grantRequest_iff_of_raise (h : HoldersAgree sm) {request : LockRequest}
    (hexpiry : expiry? request = none) :
    HoldersAgree (sm.grantRequest name request).1 ↔
      (sm.lockState name).heldBy request.clientId := by
  rw [grantRequest_of_expiry?_eq_none sm name hexpiry]
  constructor
  · intro hagree
    have hexpiries := (hagree.expiry name request.clientId).2
    rw [lockState_setLock_self] at hexpiries
    rw [heldBy_iff_mem_keys, ← h.expiry]
    exact hexpiries (mem_keys_set.2 (.inl rfl))
  · intro hheld
    have hkeys : ∀ name' client, client ∈ ((sm.setLock name { sm.lockState name with
        holders := (sm.lockState name).holders.set request.clientId request.mode }).lockState
          name').holders.keys ↔ client ∈ (sm.lockState name').holders.keys := by
      intro name' client
      rw [lockState_setLock]
      split
      · next hname =>
          rw [hname, mem_keys_set, or_iff_right_iff_imp]
          rintro rfl
          exact heldBy_iff_mem_keys.1 hheld
      · rfl
    refine ⟨fun name' client => ?_, fun client name' => ?_⟩
    · rw [hkeys, ← h.expiry, lockState_setLock]
      split
      · next hname => rw [hname]
      · rfl
    · rw [hkeys, ← h.client]
      rfl

/-- **The loop of `_grant_waiting`** keeps the tables together unless it raises at a new holder. -/
theorem grantLoop_iff (h : HoldersAgree sm) {granted : List LockRequest}
    (hgranted : ∀ r ∈ granted, r.lockName = name) :
    HoldersAgree (sm.grantLoop name granted).1 ↔ ¬ HalfGrants (sm.lockState name) granted := by
  induction granted generalizing sm with
  | nil => exact iff_of_true h not_halfGrants_nil
  | cons request granted ih =>
      have hname := hgranted request List.mem_cons_self
      have hcompleted := grantRequest_snd sm name request
      cases hexpiry : expiry? request with
      | none =>
          rw [hexpiry, Option.isSome_none] at hcompleted
          rw [halfGrants_cons_of_none hexpiry, not_not, ← h.grantRequest_iff_of_raise hexpiry]
          simp only [LockStateMachine.grantLoop, hcompleted, Bool.false_eq_true, if_false]
      | some expiry =>
          have hsome : (expiry? request).isSome = true := by rw [hexpiry, Option.isSome_some]
          rw [hsome] at hcompleted
          have hstate : (sm.grantRequest name request).1.lockState name =
              ((sm.lockState name).hold request).1 := by
            rw [lockState_grantRequest, if_pos rfl]
          rw [halfGrants_cons_of_some hsome, ← hstate]
          simp only [LockStateMachine.grantLoop, hcompleted, if_true]
          exact ih ((h.grantRequest hname hsome).withRequests _) fun r hr =>
            hgranted r (List.mem_cons_of_mem _ hr)

end HoldersAgree

/-- `held_by_client` after `_apply_release` has taken the lock from the client. -/
def LockStateMachine.discard (sm : LockStateMachine) (lock client : String) :
    Dict String (Finset String) :=
  match sm.heldByClient.get? client with
  | none => sm.heldByClient
  | some held => sm.heldByClient.set client (held.erase lock)

/-- The state after `_apply_release` has taken the lock from the client. -/
def LockStateMachine.vacate (sm : LockStateMachine) (lock client : String) : LockStateMachine :=
  { sm.setLock lock ((sm.lockState lock).leave client) with
    heldByClient := sm.discard lock client }

theorem heldOf_vacate (sm : LockStateMachine) (lock client client' : String) :
    (sm.vacate lock client).heldOf client' =
      if client' = client then (sm.heldOf client).erase lock else sm.heldOf client' := by
  change ((sm.discard lock client).get? client').getD ∅ = _
  cases hheld : sm.heldByClient.get? client with
  | none =>
      have hsame : sm.discard lock client = sm.heldByClient := by
        rw [LockStateMachine.discard, hheld]
      have hempty : sm.heldOf client = ∅ := by rw [heldOf, hheld, Option.getD_none]
      rw [hsame, hempty, Finset.erase_eq_of_notMem (Finset.notMem_empty lock)]
      split
      · next h => rw [h, hheld, Option.getD_none]
      · rfl
  | some held =>
      have hset : sm.discard lock client = sm.heldByClient.set client (held.erase lock) := by
        rw [LockStateMachine.discard, hheld]
      have hsome : sm.heldOf client = held := by rw [heldOf, hheld, Option.getD_some]
      rw [hset, Dict.get?_set, hsome]
      split
      · rw [Option.getD_some]
      · rfl

theorem lockState_vacate (sm : LockStateMachine) (lock client : String) :
    (sm.vacate lock client).lockState lock = (sm.lockState lock).leave client := by
  rw [vacate, lockState_withHeld, lockState_setLock_self]

/-- A release that finds the client among the holders. -/
theorem applyRelease_eq {sm : LockStateMachine} {lock client : String}
    (hheld : (sm.lockState lock).heldBy client) :
    sm.applyRelease lock client = (((sm.vacate lock client).grantWaiting lock).1,
      if ((sm.vacate lock client).grantWaiting lock).2 = true then .ok (.released lock client)
      else .error (raised (takeGranted ((sm.lockState lock).leave client)).1)) := by
  have hsome : ((sm.lockState lock).holders.get? client).isSome = true := hheld
  cases hlock : sm.locks.get? lock with
  | none =>
      rw [lockState, hlock] at hsome
      cases hsome
  | some state =>
      have hstate := lockState_eq_of_get? hlock
      subst hstate
      simp only [applyRelease, hlock]
      rw [if_pos hsome]
      rfl

namespace HoldersAgree

variable {sm : LockStateMachine} {name : String}

/-- A client is taken out of all tables. -/
theorem vacate (h : HoldersAgree sm) (lock client : String) :
    HoldersAgree (sm.vacate lock client) := by
  have hholders : ∀ name client',
      client' ∈ ((sm.setLock lock ((sm.lockState lock).leave client)).lockState name).holders.keys ↔
        ¬ (name = lock ∧ client' = client) ∧ client' ∈ (sm.lockState name).holders.keys := by
    intro name client'
    rw [lockState_setLock]
    split
    · next hname =>
        subst hname
        rw [LockState.leave, mem_keys_erase]
        simp
    · next hname => simp [hname]
  refine ⟨fun name client' => ?_, fun client' name => ?_⟩
  · rw [LockStateMachine.vacate, lockState_withHeld, hholders, lockState_setLock]
    split
    · next hname =>
        subst hname
        rw [LockState.leave, mem_keys_erase, h.expiry]
        simp
    · next hname => simp [hname, h.expiry]
  · refine Iff.trans ?_ (hholders name client').symm
    rw [heldOf_vacate, ← h.client]
    by_cases hclient : client' = client
    · subst hclient
      rw [if_pos rfl, Finset.mem_erase]
      simp
    · rw [if_neg hclient]
      simp [hclient]

theorem grantWaiting_iff (h : HoldersAgree sm)
    (hqueue : ∀ r ∈ (sm.lockState name).queue, r.lockName = name) :
    HoldersAgree (sm.grantWaiting name).1 ↔
      ¬ HalfGrants (sm.lockState name) (takeGranted (sm.lockState name)).1 := by
  simp only [LockStateMachine.grantWaiting]
  rw [((SameHoldings.setQueue sm name _).agree h).grantLoop_iff fun r hr => hqueue r ?_,
    lockState_setLock_self]
  · rfl
  · rw [← takeGranted_append]
    exact List.mem_append_left _ hr

theorem applyAcquire_iff (h : HoldersAgree sm) (request : LockRequest) :
    HoldersAgree (sm.applyAcquire request).1 ↔ ¬ EntersHalf sm request.acquire := by
  have hdefault := (SameHoldings.setdefault sm request.lockName).agree h
  have hcompleted := grantRequest_snd { sm with
    locks := sm.locks.setdefault request.lockName ∅ } request.lockName request
  simp only [LockStateMachine.applyAcquire, lockState_setdefault]
  cases hnew : sm.requests.get? request.requestId with
  | some result =>
      refine iff_of_true h fun hhalf => ?_
      rw [hhalf.1] at hnew
      cases hnew
  | none =>
      cases hgrant : canGrant (sm.lockState request.lockName) request with
      | false =>
          refine iff_of_true ?_ fun hhalf => ?_
          · have hlock : LockStateMachine.lockState { sm with
                locks := sm.locks.setdefault request.lockName ∅ } request.lockName =
                  sm.lockState request.lockName := lockState_setdefault
            rw [← hlock]
            exact ((SameHoldings.setQueue _ _ _).agree hdefault).withRequests _
          · have hcan := hhalf.2.1
            rw [hgrant] at hcan
            cases hcan
      | true =>
          cases hexpiry : expiry? request with
          | none =>
              rw [hexpiry, Option.isSome_none] at hcompleted
              simp only [hcompleted, if_true, Bool.false_eq_true, if_false]
              rw [hdefault.grantRequest_iff_of_raise hexpiry, lockState_setdefault, ← not_iff_not,
                not_not]
              exact ⟨fun hfree => ⟨hnew, hgrant, hexpiry, hfree⟩, fun hhalf => hhalf.2.2.2⟩
          | some expiry =>
              have hsome : (expiry? request).isSome = true := by rw [hexpiry, Option.isSome_some]
              rw [hsome] at hcompleted
              simp only [hcompleted, if_true]
              refine iff_of_true ((hdefault.grantRequest rfl hsome).withRequests _) fun hhalf => ?_
              have hnone := hhalf.2.2.1
              rw [hexpiry] at hnone
              cases hnone

theorem applyRelease_iff (h : HoldersAgree sm) (hown : QueuedAtOwnLock sm) (lock client : String) :
    HoldersAgree (sm.applyRelease lock client).1 ↔ ¬ EntersHalf sm (.release lock client) := by
  by_cases hheld : (sm.lockState lock).heldBy client
  · have hqueue : ∀ r ∈ ((sm.vacate lock client).lockState lock).queue, r.lockName = lock := by
      rw [lockState_vacate]
      exact hown lock
    rw [applyRelease_eq hheld, (h.vacate lock client).grantWaiting_iff hqueue, lockState_vacate,
      EntersHalf, and_iff_right hheld]
  · rw [applyRelease_of_not_heldBy hheld]
    exact iff_of_true h fun hhalf => hheld hhalf.1

/-- **Every command keeps the tables of holders together**, unless it enters a holder without an
expiry. -/
theorem step_iff (h : HoldersAgree sm) (hown : QueuedAtOwnLock sm) (command : Command) :
    HoldersAgree (sm.apply command).1 ↔ ¬ EntersHalf sm command := by
  cases command with
  | acquire requestId lock clientId mode ttlMs createdAt =>
      exact h.applyAcquire_iff ⟨requestId, lock, clientId, mode, createdAt, ttlMs⟩
  | release lock clientId => exact h.applyRelease_iff hown lock clientId
  | abort requestId reason =>
      exact iff_of_true ((sameHoldings_abort sm requestId reason).agree h) id
  | other op => exact iff_of_true h id

/-- Only holders expire. -/
theorem holds_of_expired (h : HoldersAgree sm) {now : ℚ} {lock client : String}
    (hexpired : (lock, client) ∈ expiredHolders sm now) : Holds sm lock client := by
  obtain ⟨time, -, htime⟩ := exists_expiry_of_mem_expiredHolders hexpired
  refine heldBy_iff_mem_keys.2 ((h.expiry lock client).1 ?_)
  rw [Dict.mem_keys_iff]
  exact ⟨some time, htime⟩

end HoldersAgree

/-- **The three holder tables agree**, after each command of a sequence, and only holders expire. -/
def HolderTablesAgree (commands : List Command) : Prop :=
  ∀ pre, pre <+: commands → HoldersAgree (applyAll pre) ∧
    ∀ now lock client, (lock, client) ∈ expiredHolders (applyAll pre) now →
      Holds (applyAll pre) lock client

/-- **When the three holder tables agree**: if and only if no command of the sequence enters a
holder without an expiry. -/
theorem holderTablesAgree_iff (commands : List Command) :
    HolderTablesAgree commands ↔
      ∀ pre command, pre ++ [command] <+: commands → ¬ EntersHalf (applyAll pre) command := by
  have hagree : HolderTablesAgree commands ↔
      ∀ pre, pre <+: commands → HoldersAgree (applyAll pre) :=
    ⟨fun hall pre hpre => (hall pre hpre).1, fun hall pre hpre =>
      ⟨hall pre hpre, fun _ _ _ hexpired => (hall pre hpre).holds_of_expired hexpired⟩⟩
  rw [hagree]
  refine Runs.forall_prefix_iff (P := fun pre => HoldersAgree (applyAll pre)) HoldersAgree.empty
    fun pre command _ hpre => ?_
  rw [applyAll_snoc]
  exact hpre.step_iff (queuedAtOwnLock_applyAll pre) command

/-- Alice asks for a free lock, with a `ttl_ms` beyond the range of floats: she is a holder, and the
lock is not in her set. -/
theorem holderTablesAgree_fails :
    ¬ ∀ commands : List Command, (∀ command ∈ commands, WellTyped command) →
      HolderTablesAgree commands := by
  intro hall
  have hagree := hall [.acquire "r1" "db" "alice" .exclusive (.num Json.floatLimit) 0]
    (by simp [WellTyped]) _ (List.prefix_refl _)
  exact absurd ((hagree.1.client "alice" "db").2 List.mem_cons_self) (by decide)

end LockManager
