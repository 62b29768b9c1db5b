/-
**Finding deadlocks.**

`find_deadlock_victim` builds a graph with an edge from each client that waits for a lock to the
holders of the lock, looks for a cycle, and returns the newest request of a client on the cycle.
Sets are iterated in an order that Python does not promise; it is an argument here, and the results
hold for every order (`LockManager.IterationOrder`).

The search is right: it finds a victim if and only if some clients wait for each other
(`LockManager.deadlockDetection`).  The choice is not.  A client on the cycle may wait for other
locks as well, and the candidates are all its requests; when the newest of them is a wait for a lock
that nobody on the cycle holds, it is aborted and the deadlock stays.

Main definitions:

* `LockManager.LockStateMachine.waitForGraph` — who waits for whom;
* `LockManager.findCycle` — `_find_cycle`;
* `LockManager.LockStateMachine.findDeadlockVictim` — **the request that is going to be aborted**;
* `LockManager.LockStateMachine.NewestInside` — the newest wait is one inside the cycle.

Main results:

* `LockManager.LockStateMachine.mem_waitForGraph` — the edges of the graph;
* `LockManager.deadlockDetection` — **a victim is found when there is a deadlock, and only then**;
* `LockManager.victimInside_iff`, `LockManager.victimInside_fails` — **when it is part of it**.
-/

import DistSync.CycleSearch
import DistSync.LockRequests
import Mathlib.Algebra.Order.Ring.Unbundled.Rat
import Mathlib.Data.List.Sort

set_option relaxedAutoImplicit false
set_option autoImplicit false

namespace LockManager

open CycleSearch LockStateMachine

/-! ### Graphs as dictionaries of sets -/

section Graph

variable {κ : Type} [DecidableEq κ]

/-- The set of a vertex, empty when it is no key. -/
def successors (graph : Dict κ (Finset κ)) (v : κ) : Finset κ := (graph.get? v).getD ∅

/-- There is an edge from `v` to `w`. -/
def HasEdge (graph : Dict κ (Finset κ)) (v w : κ) : Prop := w ∈ successors graph v

/-- The orders in which Python may iterate the sets of a graph. -/
structure IterationOrder (graph : Dict κ (Finset κ)) where
  neighbors : κ → List κ
  nodup : ∀ v, (neighbors v).Nodup
  mem_iff : ∀ v w, w ∈ neighbors v ↔ w ∈ successors graph v

variable {graph : Dict κ (Finset κ)}

theorem IterationOrder.edge_eq (order : IterationOrder graph) :
    Edge order.neighbors = HasEdge graph := by
  funext v w
  exact propext (order.mem_iff v w)

/-- Only keys have neighbours. -/
theorem IterationOrder.neighbors_eq_nil (order : IterationOrder graph) (v : κ)
    (hv : v ∉ graph.keys) : order.neighbors v = [] := by
  rw [List.eq_nil_iff_forall_not_mem]
  intro w hw
  rw [order.mem_iff, successors, Dict.get?_eq_none_iff.2 hv] at hw
  cases hw

/-- `_find_cycle`: the vertices are tried in the order of the dictionary. -/
def findCycle (graph : Dict κ (Finset κ)) (order : IterationOrder graph) : Option (List κ) :=
  CycleSearch.findCycle order.neighbors graph.keys

/-- `_find_cycle` returns a list, empty or a cycle of the graph. -/
theorem findCycle_isCycle (graph : Dict κ (Finset κ)) (order : IterationOrder graph) :
    ∃ cycle, findCycle graph order = some cycle ∧ (cycle ≠ [] → IsCycle (HasEdge graph) cycle) := by
  obtain ⟨cycle, hresult, hcycle, -⟩ := findCycle_spec order.neighbors_eq_nil
  rw [order.edge_eq] at hcycle
  exact ⟨cycle, hresult, hcycle⟩

end Graph

/-! ### The victim -/

namespace LockStateMachine

/-- The clients that wait for a lock wait for its holders. -/
def addWaits (graph : Dict String (Finset String)) (state : LockState) :
    Dict String (Finset String) :=
  let holders := state.holders.keys.toFinset
  state.queue.foldl (fun graph req =>
    graph.set req.clientId (successors graph req.clientId ∪ holders)) graph

/-- The graph of `find_deadlock_victim`. -/
def waitForGraph (sm : LockStateMachine) : Dict String (Finset String) :=
  sm.locks.values.foldl addWaits ∅

/-- The queued requests of the clients on a cycle, in the order of the tables. -/
def candidates (sm : LockStateMachine) (cycle : List String) : List LockRequest :=
  sm.locks.values.flatMap fun state => state.queue.filter (·.clientId ∈ cycle)

/-- **`find_deadlock_victim`**: the first of the candidates, after a stable sort, newest first. -/
def findDeadlockVictim (sm : LockStateMachine) (order : IterationOrder sm.waitForGraph) :
    Option String :=
  (findCycle sm.waitForGraph order).bind fun cycle =>
    if cycle = [] then none
    else
      let sorted := (sm.candidates cycle).insertionSort fun r r' => r'.createdAt ≤ r.createdAt
      sorted.head?.map (·.requestId)

/-- The client `c` has a queued request on a lock that the client `d` holds. -/
def WaitsFor (sm : LockStateMachine) (c d : String) : Prop :=
  ∃ state ∈ sm.locks.values, (∃ req ∈ state.queue, req.clientId = c) ∧ state.heldBy d

/-! ### The edges of the graph -/

theorem mem_keys_iff_heldBy {state : LockState} {c : String} :
    c ∈ state.holders.keys ↔ state.heldBy c := by
  rw [Dict.mem_keys_iff, LockState.heldBy, Option.isSome_iff_exists]

theorem successors_addWaits (graph : Dict String (Finset String)) (state : LockState)
    (c d : String) : d ∈ successors (addWaits graph state) c ↔
      d ∈ successors graph c ∨ (∃ req ∈ state.queue, req.clientId = c) ∧ d ∈ state.holders.keys := by
  rw [addWaits]
  generalize state.queue = queue
  induction queue generalizing graph with
  | nil => simp
  | cons req queue ih =>
      rw [List.foldl_cons, ih]
      by_cases hc : c = req.clientId
      · subst hc
        simp only [successors, Dict.get?_set_self, Option.getD_some, Finset.mem_union,
          List.mem_toFinset, List.exists_mem_cons_iff, true_or, true_and, or_assoc]
        rw [or_iff_left_of_imp And.right]
      · have hsame : successors (graph.set req.clientId
            (successors graph req.clientId ∪ state.holders.keys.toFinset)) c =
              successors graph c := by
          rw [successors, Dict.get?_set, if_neg hc, successors]
        rw [hsame]
        simp [Ne.symm hc]

/-- **The edges are the waits.** -/
theorem mem_waitForGraph (sm : LockStateMachine) (c d : String) :
    HasEdge sm.waitForGraph c d ↔ sm.WaitsFor c d := by
  have hfold : ∀ (states : List LockState) (graph : Dict String (Finset String)),
      d ∈ successors (states.foldl addWaits graph) c ↔ d ∈ successors graph c ∨
        ∃ state ∈ states, (∃ req ∈ state.queue, req.clientId = c) ∧ d ∈ state.holders.keys := by
    intro states
    induction states with
    | nil => simp
    | cons state states ih =>
        intro graph
        rw [List.foldl_cons, ih, successors_addWaits]
        simp [or_assoc]
  rw [HasEdge, waitForGraph, hfold]
  simp [WaitsFor, successors, mem_keys_iff_heldBy]

/-! ### When there is a victim -/

/-- A client on a cycle has a queued request. -/
theorem candidates_ne_nil {sm : LockStateMachine} {cycle : List String} (hne : cycle ≠ [])
    (h : IsCycle (HasEdge sm.waitForGraph) cycle) : sm.candidates cycle ≠ [] := by
  obtain ⟨c, hc⟩ := List.exists_mem_of_ne_nil _ hne
  obtain ⟨d, -, hedge⟩ := h.exists_edge hc
  obtain ⟨state, hstate, ⟨req, hreq, rfl⟩, -⟩ := (sm.mem_waitForGraph c d).1 hedge
  refine List.ne_nil_of_mem (a := req) ?_
  exact List.mem_flatMap.2 ⟨state, hstate, List.mem_filter.2 ⟨hreq, decide_eq_true hc⟩⟩

/-- There is a victim if and only if there is a cycle. -/
theorem findDeadlockVictim_eq_none_iff (sm : LockStateMachine)
    (order : IterationOrder sm.waitForGraph) :
    sm.findDeadlockVictim order = none ↔ findCycle sm.waitForGraph order = some [] := by
  obtain ⟨cycle, hresult, hcycle⟩ := findCycle_isCycle sm.waitForGraph order
  rw [findDeadlockVictim, hresult, Option.bind_some]
  split
  · next hnil => simp [hnil]
  · next hne =>
      have hcandidates := candidates_ne_nil hne (hcycle hne)
      simp [hne, ← List.length_eq_zero_iff, List.length_insertionSort] at hcandidates ⊢
      exact hcandidates

end LockStateMachine

/-- **Deadlock detection is sound and complete.**  `_find_cycle` ends for every graph and every
order of iteration; it returns a non-empty list if and only if the graph has a directed cycle, and
the list is then a cycle.  `find_deadlock_victim` returns `None` if and only if there is no set of
clients that all wait for clients of the set. -/
theorem deadlockDetection :
    (∀ (κ : Type) [DecidableEq κ] (graph : Dict κ (Finset κ)) (order : IterationOrder graph),
      ∃ cycle, findCycle graph order = some cycle ∧
        (cycle ≠ [] ↔ ∃ v, Relation.TransGen (HasEdge graph) v v) ∧
        (cycle ≠ [] → IsCycle (HasEdge graph) cycle)) ∧
    ∀ (sm : LockStateMachine) (order : IterationOrder sm.waitForGraph),
      sm.findDeadlockVictim order = none ↔
        ¬ ∃ D : Set String, D.Nonempty ∧ ∀ c ∈ D, ∃ d ∈ D, sm.WaitsFor c d := by
  constructor
  · intro κ _ graph order
    obtain ⟨cycle, hresult, hcycle⟩ := findCycle_isCycle graph order
    refine ⟨cycle, hresult, ?_, hcycle⟩
    rw [findCycle_ne_nil_iff order.neighbors_eq_nil hresult, order.edge_eq]
  · intro sm order
    obtain ⟨cycle, hresult, -⟩ := findCycle_isCycle sm.waitForGraph order
    rw [sm.findDeadlockVictim_eq_none_iff, hresult, Option.some.injEq,
      findCycle_eq_nil_iff order.neighbors_eq_nil hresult, order.edge_eq]
    simp only [sm.mem_waitForGraph]

/-! ### Whose wait is chosen -/

/-- The first element of a list that was sorted in descending order by a stable sort is greatest,
and the first of its kind. -/
theorem first_of_insertionSort {α β : Type} [LinearOrder β] (key : α → β) {l : List α} {x : α}
    (h : (l.insertionSort fun a b => key b ≤ key a).head? = some x) :
    ∃ i : ℕ, l[i]? = some x ∧
      ∀ (j : ℕ) y, l[j]? = some y → key y < key x ∨ key y = key x ∧ i ≤ j := by
  induction l generalizing x with
  | nil => cases h
  | cons a l ih =>
      rw [List.insertionSort_cons] at h
      cases hsort : l.insertionSort fun a b => key b ≤ key a with
      | nil =>
          have hlen := congrArg List.length hsort
          rw [List.length_insertionSort, List.length_nil, List.length_eq_zero_iff] at hlen
          rw [hsort] at h
          obtain rfl : a = x := Option.some.inj h
          refine ⟨0, rfl, fun j y hy => ?_⟩
          cases j with
          | zero => exact .inr ⟨by rw [Option.some.inj hy], le_rfl⟩
          | succ j => rw [hlen] at hy; cases hy
      | cons b rest =>
          obtain ⟨i, hi, hmax⟩ := ih (x := b) (by rw [hsort]; rfl)
          rw [hsort, List.orderedInsert_cons] at h
          split at h
          · next hle =>
              obtain rfl : a = x := Option.some.inj h
              refine ⟨0, rfl, fun j y hy => ?_⟩
              cases j with
              | zero => exact .inr ⟨by rw [Option.some.inj hy], le_rfl⟩
              | succ j =>
                  rcases hmax j y hy with hlt | ⟨heq, -⟩
                  · exact .inl (hlt.trans_le hle)
                  · exact (heq.le.trans hle).lt_or_eq.imp_right fun heq => ⟨heq, Nat.zero_le _⟩
          · next hlt =>
              obtain rfl : b = x := Option.some.inj h
              refine ⟨i + 1, hi, fun j y hy => ?_⟩
              cases j with
              | zero =>
                  obtain rfl : a = y := Option.some.inj hy
                  exact .inl (not_le.1 hlt)
              | succ j => exact (hmax j y hy).imp_right fun h => ⟨h.1, Nat.succ_le_succ h.2⟩

/-- A client of the list holds the lock. -/
def LockState.heldIn (state : LockState) (cycle : List String) : Prop :=
  ∃ c ∈ cycle, state.heldBy c

namespace LockStateMachine

/-- The waits of the clients on a cycle, each a lock with a queued request, in the order of the
tables. -/
def waits (sm : LockStateMachine) (cycle : List String) : List (LockState × LockRequest) :=
  sm.locks.values.flatMap fun state =>
    (state.queue.filter (·.clientId ∈ cycle)).map fun req => (state, req)

/-- **The newest wait is inside the cycle**: for each wait of one of its clients for a lock that
none of them holds, one of them waits for a lock that one of them holds, and this wait is newer, or
as new and comes first in the tables. -/
def NewestInside (sm : LockStateMachine) (cycle : List String) : Prop :=
  ∀ (i : ℕ) state req, (sm.waits cycle)[i]? = some (state, req) → ¬ state.heldIn cycle →
    ∃ (j : ℕ) (state' : LockState) (req' : LockRequest),
      (sm.waits cycle)[j]? = some (state', req') ∧ state'.heldIn cycle ∧
      (req.createdAt < req'.createdAt ∨ req.createdAt = req'.createdAt ∧ j < i)

variable {sm : LockStateMachine} {cycle : List String}

theorem map_snd_waits : (sm.waits cycle).map Prod.snd = sm.candidates cycle := by
  simp [waits, candidates, List.map_flatMap, Function.comp_def]

/-- The lock of a wait. -/
theorem exists_lock_of_mem_waits {state : LockState} {req : LockRequest}
    (h : (state, req) ∈ sm.waits cycle) :
    ∃ lock, sm.lockState lock = state ∧ req ∈ (sm.lockState lock).queue := by
  obtain ⟨state', hstate, hmem⟩ := List.mem_flatMap.1 h
  obtain ⟨req', hreq, heq⟩ := List.mem_map.1 hmem
  cases heq
  obtain ⟨lock, hlock⟩ := Dict.mem_values_iff.1 hstate
  have hsame := lockState_eq_of_get? hlock
  exact ⟨lock, hsame, hsame ▸ (List.mem_filter.1 hreq).1⟩

/-- The victim is the newest wait of the clients on the cycle. -/
theorem exists_newest_of_findDeadlockVictim {order : IterationOrder sm.waitForGraph} {id : String}
    (hcycle : findCycle sm.waitForGraph order = some cycle)
    (h : sm.findDeadlockVictim order = some id) :
    ∃ (i : ℕ) (state : LockState) (req : LockRequest), (sm.waits cycle)[i]? = some (state, req) ∧
      req.requestId = id ∧ ∀ (j : ℕ) state' req', (sm.waits cycle)[j]? = some (state', req') →
        req'.createdAt < req.createdAt ∨ req'.createdAt = req.createdAt ∧ i ≤ j := by
  rw [findDeadlockVictim, hcycle, Option.bind_some] at h
  split at h
  · cases h
  · obtain ⟨req, hhead, rfl⟩ := Option.map_eq_some_iff.1 h
    obtain ⟨i, hi, hmax⟩ := first_of_insertionSort (fun r : LockRequest => r.createdAt) hhead
    rw [← map_snd_waits, List.getElem?_map, Option.map_eq_some_iff] at hi
    obtain ⟨⟨state, req'⟩, hi, rfl⟩ := hi
    refine ⟨i, state, req', hi, rfl, fun j state' req'' hj => hmax j req'' ?_⟩
    rw [← map_snd_waits, List.getElem?_map, hj, Option.map_some]

end LockStateMachine

/-- **When the victim is part of the deadlock.**  In every reachable state the request that
`find_deadlock_victim` returns waits for a lock that a client on the cycle holds, if and only if the
newest wait of these clients is one for each other. -/
theorem victimInside_iff (commands : List Command)
    (order : IterationOrder (applyAll commands).waitForGraph) (cycle : List String) (id : String)
    (hcycle : findCycle (applyAll commands).waitForGraph order = some cycle)
    (hvictim : (applyAll commands).findDeadlockVictim order = some id) :
    (∃ lock, ∃ req ∈ ((applyAll commands).lockState lock).queue, req.requestId = id ∧
      ∃ c ∈ cycle, Holds (applyAll commands) lock c) ↔ (applyAll commands).NewestInside cycle := by
  obtain ⟨i, state, req, hi, rfl, hmax⟩ := exists_newest_of_findDeadlockVictim hcycle hvictim
  obtain ⟨lock, rfl, hreq⟩ := exists_lock_of_mem_waits (List.mem_of_getElem? hi)
  constructor
  · rintro ⟨lock', req', hreq', hid, hheld⟩ j state' req'' hj hout
    -- the id is queued at one lock only
    obtain rfl := (queuedOnce_applyAll commands).apart req' hreq' req hreq hid
    refine ⟨i, _, req, hi, hheld, ?_⟩
    rcases hmax j state' req'' hj with hlt | ⟨heq, hle⟩
    · exact .inl hlt
    · refine .inr ⟨heq, lt_of_le_of_ne hle ?_⟩
      rintro rfl
      rw [hi, Option.some.injEq, Prod.mk.injEq] at hj
      exact hout (hj.1 ▸ hheld)
  · intro hinside
    by_cases hheld : ((applyAll commands).lockState lock).heldIn cycle
    · exact ⟨lock, req, hreq, rfl, hheld⟩
    · exfalso
      obtain ⟨j, state', req', hj, -, hnewer⟩ := hinside i _ req hi hheld
      rcases hmax j state' req' hj with hlt | ⟨heq, hle⟩ <;>
        rcases hnewer with hlt' | ⟨heq', hlt'⟩
      · exact absurd hlt' hlt.not_gt
      · exact absurd heq' hlt.ne'
      · exact absurd heq hlt'.ne'
      · omega

/-- Alice and Bob wait for each other, and Alice waits for Carol too. -/
def crossedWaits (t : ℚ) : List Command :=
  [.acquire "r1" "a" "alice" .exclusive .null 0, .acquire "r2" "b" "bob" .exclusive .null 1,
    .acquire "r3" "c" "carol" .exclusive .null 2, .acquire "r4" "b" "alice" .exclusive .null 3,
    .acquire "r5" "a" "bob" .exclusive .null 4, .acquire "r6" "c" "alice" .exclusive .null t]

theorem keys_crossedWaits (t : ℚ) :
    (applyAll (crossedWaits t)).waitForGraph.keys = ["bob", "alice"] := rfl

theorem successors_crossedWaits (t : ℚ) :
    successors (applyAll (crossedWaits t)).waitForGraph "alice" = {"bob", "carol"} ∧
      successors (applyAll (crossedWaits t)).waitForGraph "bob" = {"alice"} := ⟨by rfl, by rfl⟩

/-- An order of iteration for its graph. -/
def crossedOrder (t : ℚ) : IterationOrder (applyAll (crossedWaits t)).waitForGraph where
  neighbors v := if v = "alice" then ["bob", "carol"] else if v = "bob" then ["alice"] else []
  nodup v := by split_ifs <;> decide
  mem_iff v w := by
    obtain ⟨halice, hbob⟩ := successors_crossedWaits t
    split_ifs with h h'
    · rw [h, halice]
      simp
    · rw [h', hbob]
      simp
    · rw [successors, Dict.get?_eq_none_iff.2]
      · rfl
      · rw [keys_crossedWaits]
        simp [h, h']

/-- Her request for Carol's lock is the newest, and is chosen. -/
theorem victimInside_fails :
    ¬ ∀ (commands : List Command) (order : IterationOrder (applyAll commands).waitForGraph)
      (cycle : List String) (id : String),
      findCycle (applyAll commands).waitForGraph order = some cycle →
      (applyAll commands).findDeadlockVictim order = some id →
      ∃ lock, ∃ req ∈ ((applyAll commands).lockState lock).queue, req.requestId = id ∧
        ∃ c ∈ cycle, Holds (applyAll commands) lock c := by
  intro hall
  obtain ⟨lock, req, hreq, hid, c, hc, hheld⟩ := hall (crossedWaits 5) (crossedOrder 5)
    ["bob", "alice"] "r6" (by decide +kernel) (by decide +kernel)
  have hr6 : (⟨"r6", "c", "alice", .exclusive, 5, .null⟩ : LockRequest) ∈
      ((applyAll (crossedWaits 5)).lockState "c").queue := List.mem_singleton_self _
  obtain rfl := (queuedOnce_applyAll _).apart req hreq _ hr6 hid
  rw [List.mem_cons, List.mem_singleton] at hc
  rcases hc with rfl | rfl <;> cases hheld

/-- When it is older than Bob's request for her lock, that one is chosen. -/
theorem victimInside_crossedWaits :
    (applyAll (crossedWaits 3)).findDeadlockVictim (crossedOrder 3) = some "r5" ∧
      ∃ lock, ∃ req ∈ ((applyAll (crossedWaits 3)).lockState lock).queue, req.requestId = "r5" ∧
        ∃ c ∈ ["bob", "alice"], Holds (applyAll (crossedWaits 3)) lock c := by
  have hvictim : (applyAll (crossedWaits 3)).findDeadlockVictim (crossedOrder 3) = some "r5" := by
    decide +kernel
  refine ⟨hvictim, (victimInside_iff (crossedWaits 3) (crossedOrder 3) ["bob", "alice"] "r5"
    (by decide +kernel) hvictim).2 ?_⟩
  intro i state req hi hout
  refine ⟨0, (applyAll (crossedWaits 3)).lockState "a",
    ⟨"r5", "a", "bob", .exclusive, 4, .null⟩, rfl, ⟨"alice", by simp, rfl⟩, .inl ?_⟩
  -- three requests wait, the first of them is Bob's
  rcases i with _ | _ | _ | i
  · cases hi
    exact absurd ⟨"alice", by simp, rfl⟩ hout
  · cases hi
    decide +kernel
  · cases hi
    decide +kernel
  · cases hi

end LockManager
