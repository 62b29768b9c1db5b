/-
**What the search for a deadlock tells.**

`find_deadlock_victim` looks for a set of clients that wait for each other.  If there is none, then
nobody has to be aborted: among the clients that hold locks there is always one that waits for
nothing, and when such clients release what they hold, one after the other, every request is granted
in the end.  This takes that a client waits for one request at a time; a client that waits for two
may close a cycle when it is granted the first.

If there is such a set, time alone does not help.  Whatever the other clients do, as long as the
clients of the set release nothing and none of their requests is aborted, the requests for the locks
that they hold stay where they are, and a victim is still found.

Main definitions:

* `LockManager.Waits`, `LockManager.OneWait` — who waits, and for one request only;
* `LockManager.Deadlock` — a set of clients that wait for each other;
* `LockManager.releaseStep`, `LockManager.Leaves` — releases by clients that wait for nothing.

Main results:

* `LockManager.exists_leaves`, `LockManager.noDeadlock_release` — without a deadlock somebody can
  release a lock, and then there is still none;
* `LockManager.drains` — **without a victim, all requests can be granted**;
* `LockManager.deadlockStays` — **a deadlock stays**.
-/

import DistSync.LockResolution
import DistSync.LockWaiting
import DistSync.RunRules
import Mathlib.Algebra.Order.BigOperators.Group.Finset

set_option relaxedAutoImplicit false
set_option autoImplicit false

namespace LockManager

open CycleSearch LockStateMachine Runs

/-! ### Waiting clients -/

/-- The client has a queued request. -/
def Waits (sm : LockStateMachine) (client : String) : Prop :=
  ∃ name, ∃ r ∈ (sm.lockState name).queue, r.clientId = client

/-- No client has two queued requests. -/
def OneWait (sm : LockStateMachine) : Prop :=
  ∀ name name' r r', r ∈ (sm.lockState name).queue → r' ∈ (sm.lockState name').queue →
    r.clientId = r'.clientId → r = r'

/-- **The clients of the set wait for each other.** -/
def Deadlock (sm : LockStateMachine) (D : Set String) : Prop :=
  ∀ c ∈ D, ∃ d ∈ D, sm.WaitsFor c d

variable {sm sm' : LockStateMachine} {c d lock client : String} {D : Set String}

theorem waitsFor_iff : sm.WaitsFor c d ↔
    ∃ name, (∃ r ∈ (sm.lockState name).queue, r.clientId = c) ∧ Holds sm name d := by
  constructor
  · rintro ⟨state, hstate, hqueue, hheld⟩
    obtain ⟨name, hname⟩ := Dict.mem_values_iff.1 hstate
    obtain rfl := lockState_eq_of_get? hname
    exact ⟨name, hqueue, hheld⟩
  · rintro ⟨name, hqueue, hheld⟩
    refine ⟨sm.lockState name, ?_, hqueue, hheld⟩
    cases hname : sm.locks.get? name with
    | none =>
        -- a lock that was never asked for has no holders
        rw [Holds, lockState, hname] at hheld
        cases hheld
    | some state =>
        rw [lockState, hname]
        exact Dict.mem_values_iff.2 ⟨name, hname⟩

/-- There is no victim if and only if no clients wait for each other. -/
theorem findDeadlockVictim_eq_none (order : IterationOrder sm.waitForGraph) :
    sm.findDeadlockVictim order = none ↔ ∀ D : Set String, Deadlock sm D → D = ∅ := by
  obtain ⟨cycle, hresult, -⟩ := findCycle_isCycle sm.waitForGraph order
  rw [sm.findDeadlockVictim_eq_none_iff, hresult, Option.some.injEq,
    findCycle_eq_nil_iff order.neighbors_eq_nil hresult, order.edge_eq]
  simp only [sm.mem_waitForGraph]
  constructor
  · intro hnone D hD
    by_contra hne
    exact hnone ⟨D, Set.nonempty_iff_ne_empty.2 hne, hD⟩
  · rintro hnone ⟨D, hne, hD⟩
    exact hne.ne_empty (hnone D hD)

/-! ### A client that can release -/

/-- A client gives a lock back. -/
def releaseStep (sm : LockStateMachine) (hold : String × String) : Option LockStateMachine :=
  some (sm.apply (.release hold.1 hold.2)).1

/-- The client holds the lock, and waits for nothing. -/
def Leaves (sm : LockStateMachine) (hold : String × String) : Prop :=
  Holds sm hold.1 hold.2 ∧ ¬ Waits sm hold.2

/-- **If somebody waits and there is no deadlock, somebody can release.** -/
theorem exists_leaves (hidle : ∀ name, IdleFree (sm.lockState name))
    (hnone : ∀ D : Set String, Deadlock sm D → D = ∅) (hwaits : Waits sm client) :
    ∃ hold, Leaves sm hold := by
  by_contra hall
  push Not at hall
  -- otherwise every holder waits, and those who wait are a deadlock
  have hdeadlock : Deadlock sm {c | Waits sm c} := by
    rintro c ⟨name, r, hr, hc⟩
    have hheld : ∃ d mode, (sm.lockState name).holders.get? d = some mode := by
      by_contra hfree
      push Not at hfree
      have hqueue := hidle name fun d => Option.eq_none_iff_forall_ne_some.2 (hfree d)
      rw [hqueue] at hr
      cases hr
    obtain ⟨d, mode, hd⟩ := hheld
    have hholds : Holds sm name d := Option.isSome_iff_exists.2 ⟨mode, hd⟩
    have hd' : Waits sm d := by
      by_contra hnot
      exact hall (name, d) ⟨hholds, hnot⟩
    exact ⟨d, hd', waitsFor_iff.2 ⟨name, ⟨r, hr, hc⟩, hholds⟩⟩
  have hempty := hnone _ hdeadlock
  exact absurd hwaits (Set.eq_empty_iff_forall_notMem.1 hempty client)

/-- One who holds a lock after some requests were granted held it before, or is one of them. -/
theorem heldBy_of_holdAll {state : LockState} {granted : List LockRequest}
    (h : (state.holdAll granted).heldBy c) :
    state.heldBy c ∨ ∃ r ∈ granted, r.clientId = c := by
  induction granted generalizing state with
  | nil => exact .inl h
  | cons request granted ih =>
      have hhold : ∀ {state : LockState}, (state.hold request).1.heldBy c →
          state.heldBy c ∨ request.clientId = c := by
        intro state hheld
        rw [LockState.heldBy, hold_holders, Dict.get?_set] at hheld
        split at hheld
        · next heq => exact .inr heq.symm
        · exact .inl hheld
      have hfirst : (state.hold request).1.heldBy c →
          state.heldBy c ∨ ∃ r ∈ request :: granted, r.clientId = c :=
        fun hheld => (hhold hheld).imp id fun heq => ⟨request, List.mem_cons_self, heq⟩
      cases hcompleted : (state.hold request).2 with
      | false =>
          rw [LockState.holdAll_of_raise hcompleted] at h
          exact hfirst h
      | true =>
          rw [LockState.holdAll_of_hold hcompleted] at h
          rcases ih h with hheld | ⟨r, hr, heq⟩
          · exact hfirst hheld
          · exact .inr ⟨r, List.mem_cons_of_mem _ hr, heq⟩

theorem queue_release_sublist (lock client name : String) :
    ((sm.apply (.release lock client)).1.lockState name).queue.Sublist
      (sm.lockState name).queue := by
  rcases (apply_lockMoves sm name (.release lock client)).queue_cases with hsub | ⟨r, heq, -⟩
  · exact hsub
  · cases heq

theorem OneWait.release (h : OneWait sm) (lock client : String) :
    OneWait (sm.apply (.release lock client)).1 := by
  intro name name' r r' hr hr'
  exact h name name' r r' ((queue_release_sublist lock client name).subset hr)
    ((queue_release_sublist lock client name').subset hr')

instance decidableHolds (sm : LockStateMachine) (lock client : String) :
    Decidable (Holds sm lock client) := inferInstanceAs (Decidable (_ = true))

/-- A lock after a release, if the client held it. -/
theorem lockState_release (lock client name : String) :
    (sm.apply (.release lock client)).1.lockState name =
      if name = lock ∧ Holds sm name client then ((sm.lockState name).leave client).regrant
      else sm.lockState name := lockState_applyRelease lock client

/-- **A release closes no cycle**: who is granted a lock by it waits for nothing any more. -/
theorem noDeadlock_release (honce : QueuedOnce sm) (hone : OneWait sm)
    (hnone : ∀ D : Set String, Deadlock sm D → D = ∅) (lock client : String) (D : Set String)
    (hD : Deadlock (sm.apply (.release lock client)).1 D) : D = ∅ := by
  refine hnone D fun c hc => ?_
  obtain ⟨d, hd, hwait⟩ := hD c hc
  obtain ⟨name, ⟨r, hr, hrc⟩, hheld⟩ := waitsFor_iff.1 hwait
  refine ⟨d, hd, waitsFor_iff.2
    ⟨name, ⟨r, (queue_release_sublist lock client name).subset hr, hrc⟩, ?_⟩⟩
  rw [Holds, lockState_release] at hheld
  split at hheld
  · next hreleased =>
      rcases heldBy_of_holdAll hheld with hheld | ⟨g, hg, hgd⟩
      · simp only [LockState.heldBy, LockState.leave, Dict.get?_erase] at hheld
        split at hheld
        · cases hheld
        · exact hheld
      · -- a request of `d` was granted, but `d` still waits for another one
        obtain ⟨e, -, hwait'⟩ := hD d hd
        obtain ⟨name', ⟨r', hr', hrd'⟩, -⟩ := waitsFor_iff.1 hwait'
        have hqueue : _ = (sm.lockState name).queue :=
          takeGranted_append ((sm.lockState name).leave client)
        have hgq : g ∈ (sm.lockState name).queue := hqueue ▸ List.mem_append_left _ hg
        have hrq' := (queue_release_sublist lock client name').subset hr'
        obtain rfl : g = r' := hone name name' g r' hgq hrq' (hgd.trans hrd'.symm)
        obtain rfl : name = name' := honce.apart g hgq g hrq' rfl
        rw [lockState_release, if_pos hreleased, LockState.regrant, holdAll_queue] at hr'
        have hnodup := honce.nodup name
        rw [← hqueue, List.map_append] at hnodup
        exact absurd (List.mem_map_of_mem hr')
          (List.disjoint_of_nodup_append hnodup (List.mem_map_of_mem hg))
  · exact hheld

/-! ### All requests are granted -/

/-- The holders of a lock, and twice those who wait for it. -/
def LockState.load (state : LockState) : ℕ := 2 * state.queue.length + state.holders.size

/-- The load of some locks. -/
def load (names : Finset String) (sm : LockStateMachine) : ℕ :=
  ∑ name ∈ names, (sm.lockState name).load

theorem load_regrant {state : LockState} (hheld : state.heldBy c) :
    (state.leave c).regrant.load < state.load := by
  have hqueue : _ = state.queue := takeGranted_append (state.leave c)
  have hlength := congrArg List.length hqueue
  rw [List.length_append] at hlength
  have hrest : (state.leave c).regrant.queue = (takeGranted (state.leave c)).2 := by
    rw [LockState.regrant, holdAll_queue]
  have hholders : (state.leave c).regrant.holders.size ≤
      (state.holders.erase c).size + (takeGranted (state.leave c)).1.length :=
    size_holdAll_le _ _
  have hsize : (state.holders.erase c).size + 1 = state.holders.size := by
    refine Dict.size_erase ?_
    rw [Dict.mem_keys_iff, ← Option.isSome_iff_exists]
    exact hheld
  rw [LockState.load, LockState.load, hrest]
  omega

/-- **Every release takes something away**: a holder, or a waiting request that becomes one. -/
theorem load_release {names : Finset String} (hlock : lock ∈ names) (hheld : Holds sm lock c) :
    load names (sm.apply (.release lock c)).1 < load names sm := by
  refine Finset.sum_lt_sum (fun name _ => ?_) ⟨lock, hlock, ?_⟩
  · rw [lockState_release]
    split
    · next h => exact (load_regrant h.2).le
    · exact le_rfl
  · rw [lockState_release, if_pos ⟨rfl, hheld⟩]
    exact load_regrant hheld

/-- A request that waits is not aborted by a release. -/
theorem status_release {id : String} {requests : List LockRequest} (hserved : Served sm requests)
    (lock client : String)
    (h : sm.status? id = some "waiting") :
    (sm.apply (.release lock client)).1.status? id = some "waiting" ∨
      (sm.apply (.release lock client)).1.status? id = some "granted" := by
  have hserves := apply_serves sm (.release lock client)
  rcases hserves.status hserved id _ h with hsame | ⟨-, hgranted | haborted⟩
  · exact .inl hsame
  · exact .inr hgranted
  · cases hserves with
    | same hnothing hstored hqueue =>
        left
        rw [status?, hstored]
        exact h
    | release _ _ granted dropped rest hheld htake hexpiry hdropped hgranted hstored hqueue =>
        by_cases hid : ∃ r ∈ granted, r.requestId = id
        · obtain ⟨r, hr, rfl⟩ := hid
          obtain ⟨info, hinfo⟩ := hgranted r hr
          right
          rw [status?, hinfo]
          rfl
        · left
          rw [status?, hstored id fun r hr heq => hid ⟨r, hr, heq⟩]
          exact h

/-- What is true while the locks of `start` are given back. -/
structure Draining (names : Finset String) (start sm : LockStateMachine) : Prop where
  reached : ∃ commands, sm = applyAll commands ∧ (∀ command ∈ commands, command.wellModed) ∧
    ∀ command ∈ commands, WellTimed command
  oneWait : OneWait sm
  none : ∀ D : Set String, Deadlock sm D → D = ∅
  names : ∀ name, name ∉ names → sm.lockState name = ∅
  served : ∀ id, start.status? id = some "waiting" →
    sm.status? id = some "waiting" ∨ sm.status? id = some "granted"

theorem Draining.mem {names : Finset String} {start : LockStateMachine}
    (h : Draining names start sm) (hheld : Holds sm lock c) : lock ∈ names := by
  by_contra hlock
  rw [Holds, h.names lock hlock] at hheld
  cases hheld

theorem Draining.release {names : Finset String} {start : LockStateMachine}
    (h : Draining names start sm) (lock client : String) :
    Draining names start (sm.apply (.release lock client)).1 where
  reached := by
    obtain ⟨commands, rfl, hmodes, htimed⟩ := h.reached
    exact ⟨commands ++ [.release lock client], (applyAll_snoc _ _).symm,
      List.forall_mem_append.2 ⟨hmodes, by simp [Command.wellModed]⟩,
      List.forall_mem_append.2 ⟨htimed, by simp [WellTimed]⟩⟩
  oneWait := h.oneWait.release lock client
  none := by
    obtain ⟨commands, hsm, -⟩ := h.reached
    have honce : QueuedOnce sm := hsm ▸ queuedOnce_applyAll commands
    exact noDeadlock_release honce h.oneWait h.none lock client
  names := by
    intro name hname
    rw [lockState_release, if_neg, h.names name hname]
    rintro ⟨rfl, hheld⟩
    exact hname (h.mem hheld)
  served := by
    obtain ⟨commands, hsm, -⟩ := h.reached
    have hserved : Served sm (arrivals commands) := hsm ▸ served_applyAll commands
    have hserves := apply_serves sm (.release lock client)
    intro id hid
    rcases h.served id hid with hwaiting | hgranted
    · exact status_release hserved lock client hwaiting
    · right
      rcases hserves.status hserved id _ hgranted with hsame | ⟨hwaiting, -⟩
      · exact hsame
      · exact absurd hwaiting (by decide)

/-- **Without a victim, all requests can be granted.**  In a state that was reached by requests of
the two modes, in which no client waits for two requests and `find_deadlock_victim` finds nothing,
clients that wait for nothing can release locks, one after the other, until nobody waits; every
request that was waiting is granted then, and none was aborted. -/
theorem drains {commands : List Command} (hmodes : ∀ command ∈ commands, command.wellModed)
    (htimed : ∀ command ∈ commands, WellTimed command)
    (order : IterationOrder (applyAll commands).waitForGraph)
    (hvictim : (applyAll commands).findDeadlockVictim order = none)
    (hone : OneWait (applyAll commands)) :
    ∃ sm', Run releaseStep Leaves (applyAll commands) sm' ∧
      (∀ name, (sm'.lockState name).queue = []) ∧
      ∀ id, (applyAll commands).status? id = some "waiting" → sm'.status? id = some "granted" := by
  let start := applyAll commands
  let names := start.locks.keys.toFinset
  have hstart : Draining names start start := by
    refine ⟨⟨commands, rfl, hmodes, htimed⟩, hone, (findDeadlockVictim_eq_none order).1 hvictim,
      fun name hname => ?_, fun id hid => .inl hid⟩
    rw [List.mem_toFinset, ← Dict.get?_eq_none_iff] at hname
    rw [lockState, hname, Option.getD_none]
  -- every release brings the load down
  have hstep : ∀ sm, Draining names start sm → ¬ (∀ client, ¬ Waits sm client) →
      ∃ hold sm', Leaves sm hold ∧ releaseStep sm hold = some sm' ∧ Draining names start sm' ∧
        load names sm' < load names sm := by
    intro sm h hwaits
    push Not at hwaits
    obtain ⟨client, hclient⟩ := hwaits
    have hidle : ∀ name, IdleFree (sm.lockState name) := by
      obtain ⟨commands', rfl, hmodes', -⟩ := h.reached
      exact idleFree_applyAll hmodes'
    obtain ⟨hold, hleaves⟩ := exists_leaves hidle h.none hclient
    exact ⟨hold, _, hleaves, rfl, h.release hold.1 hold.2,
      load_release (h.mem hleaves.1) hleaves.1⟩
  obtain ⟨sm', hrun, hdone⟩ := Run.exists_of_work (load names) hstep hstart
  have hend : Draining names start sm' := by
    refine hrun.invariant (fun sm hold sm' h _ hstep => ?_) hstart
    obtain rfl := Option.some.inj hstep
    exact h.release hold.1 hold.2
  refine ⟨sm', hrun, fun name => ?_, fun id hid => ?_⟩
  · rw [List.eq_nil_iff_forall_not_mem]
    exact fun r hr => hdone r.clientId ⟨name, r, hr, rfl⟩
  · refine (hend.served id hid).resolve_left fun hwaiting => ?_
    obtain ⟨info, hinfo⟩ := status?_eq_waiting_iff.1 hwaiting
    obtain ⟨commands', hsm', -, htimed'⟩ := hend.reached
    have hmirrors : Mirrors sm' := hsm' ▸ mirrors_applyAll htimed'
    obtain ⟨name, r, hr, -⟩ := hmirrors.waiting id info hinfo
    exact hdone r.clientId ⟨name, r, hr, rfl⟩

/-- Clients with different names in all queues wait for one request each. -/
theorem oneWait_of_nodup (h : ((queued sm).map (·.clientId)).Nodup) : OneWait sm := by
  have hmem : ∀ name r, r ∈ (sm.lockState name).queue → r ∈ queued sm := fun name r hr =>
    (queued_perm sm name).mem_iff.2 (List.mem_append_left _ hr)
  exact fun name name' r r' hr hr' heq =>
    List.inj_on_of_nodup_map h (hmem name r hr) (hmem name' r' hr') heq

/-- Bob waits for Alice, and Carol waits for Bob. -/
def chainedWaits : List Command :=
  [.acquire "r1" "a" "alice" .exclusive .null 0, .acquire "r2" "b" "bob" .exclusive .null 1,
    .acquire "r3" "a" "bob" .exclusive .null 2, .acquire "r4" "b" "carol" .shared .null 3]

/-- An order of iteration for their graph. -/
def chainedOrder : IterationOrder (applyAll chainedWaits).waitForGraph where
  neighbors v := if v = "bob" then ["alice"] else if v = "carol" then ["bob"] else []
  nodup v := by split_ifs <;> decide
  mem_iff v w := by
    have hbob : successors (applyAll chainedWaits).waitForGraph "bob" = {"alice"} := by rfl
    have hcarol : successors (applyAll chainedWaits).waitForGraph "carol" = {"bob"} := by rfl
    have hkeys : (applyAll chainedWaits).waitForGraph.keys = ["bob", "carol"] := rfl
    split_ifs with h h'
    · rw [h, hbob]
      simp
    · rw [h', hcarol]
      simp
    · rw [successors, Dict.get?_eq_none_iff.2]
      · rfl
      · rw [hkeys]
        simp [h, h']

theorem drains_chainedWaits :
    ∃ sm', Run releaseStep Leaves (applyAll chainedWaits) sm' ∧
      sm'.status? "r3" = some "granted" ∧ sm'.status? "r4" = some "granted" := by
  have hmodes : ∀ command ∈ chainedWaits, command.wellModed := by
    simp [chainedWaits, Command.wellModed]
  have htimed : ∀ command ∈ chainedWaits, WellTimed command := by
    simp [chainedWaits, WellTimed]
  obtain ⟨sm', hrun, -, hgranted⟩ := drains hmodes htimed chainedOrder (by decide +kernel)
    (oneWait_of_nodup (by decide +kernel))
  exact ⟨sm', hrun, hgranted "r3" (by decide +kernel), hgranted "r4" (by decide +kernel)⟩

/-! ### A deadlock stays -/

/-- **A request stays in the queue** of a lock while one of its holders does not release it. -/
theorem mem_queue_step {command : Command} {request : LockRequest}
    (hhead : HeadConflicts (sm.lockState lock)) (hholders : Exclusion (sm.lockState lock).holders)
    (hheld : Holds sm lock d) (hq : request ∈ (sm.lockState lock).queue)
    (hrelease : command ≠ .release lock d)
    (habort : ∀ reason, command ≠ .abort request.requestId reason) :
    request ∈ ((sm.apply command).1.lockState lock).queue := by
  have hmove := apply_lockMoves sm lock command
  generalize (sm.apply command).1.lockState lock = state at hmove ⊢
  cases hmove with
  | same => exact hq
  | grant request' hname hnew hgrant =>
      rw [hold_queue]
      exact hq
  | wait request' hname hnew hgrant => exact List.mem_append_left _ hq
  | @release clientId hheld' =>
      have hne : d ≠ clientId := fun heq => hrelease (by rw [heq])
      have hstays : (((sm.lockState lock).leave clientId).holders.get? d).isSome = true := by
        rw [LockState.leave, Dict.get?_erase_of_ne hne]
        exact hheld
      rw [LockState.regrant, holdAll_queue]
      rcases takeGranted_cases ((sm.lockState lock).leave clientId) with
        ⟨first, -, hfree, -, -⟩ | ⟨-, hshared, hqueue, -, -⟩ | ⟨htake, -⟩
      · rw [hfree d] at hstays
        cases hstays
      · -- a reader at the head conflicts with a writer, who holds the lock alone
        cases hgranted : (takeGranted ((sm.lockState lock).leave clientId)).1 with
        | nil =>
            rw [hgranted, List.nil_append] at hqueue
            rw [← hqueue]
            exact hq
        | cons g granted =>
            rw [hgranted] at hshared hqueue
            have hfirst : g ∈ (sm.lockState lock).queue.head? := by
              change (sm.lockState lock).queue = _ at hqueue
              rw [hqueue]
              rfl
            obtain ⟨c, hc⟩ := (hhead g hfirst).2 (hshared g List.mem_cons_self)
            obtain ⟨held, hrepresents⟩ := hholders
            have honly : ∀ e, (sm.lockState lock).heldBy e → e = c := by
              intro e he
              obtain ⟨mode, hmode⟩ := Option.isSome_iff_exists.1 he
              exact hrepresents.only_holder hc hmode
            exact absurd ((honly d hheld).trans (honly clientId hheld').symm) hne
      · rw [htake]
        exact hq
  | @abort requestId reason request' hfound =>
      have hid : request.requestId ≠ requestId := fun heq => habort reason (by rw [heq])
      exact (List.mem_eraseP_of_neg (by simpa using hid)).2 hq

/-- **A deadlock stays**, whatever the other clients do, until one of its clients gives a lock back
or one of its requests is aborted: every request for a lock that one of these clients holds stays in
the queue, they still wait for each other, and a victim is found. -/
theorem deadlockStays {commands rest : List Command}
    (hmodes : ∀ command ∈ commands ++ rest, command.wellModed)
    (hexposes : ExposesNoReader (commands ++ rest)) (hD : Deadlock (applyAll commands) D)
    (hne : D.Nonempty)
    (hrelease : ∀ lock, ∀ d ∈ D, Command.release lock d ∉ rest)
    (habort : ∀ lock, ∀ r ∈ ((applyAll commands).lockState lock).queue, r.clientId ∈ D →
      ∀ reason, Command.abort r.requestId reason ∉ rest) :
    (∀ lock, ∀ r ∈ ((applyAll commands).lockState lock).queue, r.clientId ∈ D →
      (∃ d ∈ D, Holds (applyAll commands) lock d) →
        r ∈ ((applyAll (commands ++ rest)).lockState lock).queue) ∧
    Deadlock (applyAll (commands ++ rest)) D ∧
    ∀ order, (applyAll (commands ++ rest)).findDeadlockVictim order ≠ none := by
  have hstays : ∀ lock, ∀ r ∈ ((applyAll commands).lockState lock).queue, r.clientId ∈ D →
      ∀ d ∈ D, Holds (applyAll commands) lock d →
        r ∈ ((applyAll (commands ++ rest)).lockState lock).queue ∧
          Holds (applyAll (commands ++ rest)) lock d := by
    intro lock r hr hrD d hd hheld
    have habort' := habort lock r hr hrD
    clear hD habort
    induction rest using List.reverseRecOn with
    | nil =>
        rw [List.append_nil]
        exact ⟨hr, hheld⟩
    | append_singleton rest command ih =>
        rw [← List.append_assoc] at hmodes hexposes
        have hinit : ∀ c ∈ commands ++ rest, c.wellModed := fun c hc =>
          hmodes c (List.mem_append_left _ hc)
        have hinit' := hexposes.of_isPrefix (List.prefix_append (commands ++ rest) [command])
        obtain ⟨hq, hholds⟩ := ih hinit hinit'
          (fun lock d hd hmem => hrelease lock d hd (List.mem_append_left _ hmem))
          (fun reason hmem => habort' reason (List.mem_append_left _ hmem))
        have hlast : command ∈ rest ++ [command] :=
          List.mem_append_right _ (List.mem_singleton_self _)
        have hnot : command ≠ .release lock d := fun heq => hrelease lock d hd (heq ▸ hlast)
        rw [← List.append_assoc, applyAll_snoc]
        refine ⟨?_, (hholds.step command).resolve_left hnot⟩
        exact mem_queue_step (headConflicts_applyAll hinit hinit') (exclusion_applyAll _ lock)
          hholds hq hnot fun reason heq => habort' reason (heq ▸ hlast)
  have hD' : Deadlock (applyAll (commands ++ rest)) D := by
    intro c hc
    obtain ⟨d, hd, hwait⟩ := hD c hc
    obtain ⟨name, ⟨r, hr, hrc⟩, hheld⟩ := waitsFor_iff.1 hwait
    obtain ⟨hq, hholds⟩ := hstays name r hr (hrc ▸ hc) d hd hheld
    exact ⟨d, hd, waitsFor_iff.2 ⟨name, ⟨r, hq, hrc⟩, hholds⟩⟩
  refine ⟨fun lock r hr hrD ⟨d, hd, hheld⟩ => (hstays lock r hr hrD d hd hheld).1, hD',
    fun order hvictim => ?_⟩
  exact hne.ne_empty ((findDeadlockVictim_eq_none order).1 hvictim D hD')

/-- Two others come for the locks of Alice and Bob, and Carol gives up hers. -/
def othersCome : List Command :=
  [.acquire "r7" "a" "dave" .shared .null 6, .release "c" "carol",
    .acquire "r8" "b" "erin" .exclusive .null 7]

theorem deadlockStays_othersCome :
    (∃ r ∈ ((applyAll (crossedWaits 5 ++ othersCome)).lockState "b").queue, r.requestId = "r4") ∧
      Deadlock (applyAll (crossedWaits 5 ++ othersCome)) {"alice", "bob"} := by
  have hdeadlock : Deadlock (applyAll (crossedWaits 5)) {"alice", "bob"} := by
    rintro c (rfl | rfl)
    · refine ⟨"bob", .inr rfl, waitsFor_iff.2 ⟨"b", ?_, by decide +kernel⟩⟩
      exact ⟨⟨"r4", "b", "alice", .exclusive, 3, .null⟩, List.mem_singleton_self _, rfl⟩
    · refine ⟨"alice", .inl rfl, waitsFor_iff.2 ⟨"a", ?_, by decide +kernel⟩⟩
      exact ⟨⟨"r5", "a", "bob", .exclusive, 4, .null⟩, List.mem_singleton_self _, rfl⟩
  have hmodes : ∀ command ∈ crossedWaits 5 ++ othersCome, command.wellModed := by
    simp [crossedWaits, othersCome, Command.wellModed]
  have hexposes : ExposesNoReader (crossedWaits 5 ++ othersCome) := by
    intro pre command hpre hexposes
    have hmem : command ∈ crossedWaits 5 ++ othersCome :=
      hpre.subset (List.mem_append_right _ (List.mem_singleton_self _))
    cases command with
    | abort id reason => simp [crossedWaits, othersCome] at hmem
    | _ => exact hexposes
  have hrelease : ∀ lock, ∀ d ∈ ({"alice", "bob"} : Set String),
      Command.release lock d ∉ othersCome := by
    rintro lock d (rfl | rfl) hmem <;> simp [othersCome] at hmem
  have habort : ∀ lock, ∀ r ∈ ((applyAll (crossedWaits 5)).lockState lock).queue,
      r.clientId ∈ ({"alice", "bob"} : Set String) →
      ∀ reason, Command.abort r.requestId reason ∉ othersCome := by
    intro lock r hr hrD reason hmem
    simp [othersCome] at hmem
  obtain ⟨hqueue, hD, -⟩ :=
    deadlockStays hmodes hexposes hdeadlock ⟨"alice", .inl rfl⟩ hrelease habort
  refine ⟨⟨⟨"r4", "b", "alice", .exclusive, 3, .null⟩, ?_, rfl⟩, hD⟩
  exact hqueue "b" _ (List.mem_singleton_self _) (.inl rfl) ⟨"bob", .inr rfl, by decide +kernel⟩

end LockManager
