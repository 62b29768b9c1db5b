/-
**Unknown modes.**

A free lock should not be waited for.  With the two modes it never is: a request for a free lock is
granted at once, and a release goes on granting from the queue (`LockManager.idleFree_applyAll`).
But `handle_acquire` passes every `mode` on.  A request with another mode is granted by neither
`_can_grant` nor `_grant_waiting`, so it waits for ever; and `_grant_waiting` looks at the head of
the queue only.  When such a request has got to the head, a release frees the lock and stops, and
the readers and writers behind it wait for nobody.

These releases are the only commands that do this, in any sequence of commands.

Main definitions:

* `LockManager.FreeOfWaiters` — nobody waits for a free lock in one of the two modes;
* `LockManager.StopsAtUnknown` — **the release that stops at a request of another mode**.

Main results:

* `LockManager.FreeOfWaiters.step` — every other command keeps the invariant;
* `LockManager.freeOfWaiters_iff`, `LockManager.freeOfWaiters_fails` — **when a free lock has no
  valid waiter**.
-/

import DistSync.LockQueue

set_option relaxedAutoImplicit false
set_option autoImplicit false

namespace LockManager

open LockStateMachine

/-- The mode is one of the two that are ever granted. -/
def Json.isMode (mode : Json) : Prop := mode = .shared ∨ mode = .exclusive

/-- Nobody holds the lock. -/
def LockState.free (state : LockState) : Prop := ∀ c, state.holders.get? c = none

/-- **Nobody waits for a free lock** in one of the two modes. -/
def FreeOfWaiters (state : LockState) : Prop :=
  state.free → ∀ r ∈ state.queue, ¬ r.mode.isMode

/-- **A release that stops at a request of another mode**: it frees the lock, this request is the
first in the queue, and behind it there is one that could be granted. -/
def StopsAtUnknown (sm : LockStateMachine) : Command → Prop
  | .release lock clientId => (sm.lockState lock).heldBy clientId ∧
      ((sm.lockState lock).leave clientId).free ∧
      (∃ head ∈ (sm.lockState lock).queue.head?, ¬ head.mode.isMode) ∧
      ∃ r ∈ (sm.lockState lock).queue, r.mode.isMode
  | _ => False

/-! ### Grants to a free lock -/

theorem not_free_of_heldBy {state : LockState} {client : String} (h : state.heldBy client) :
    ¬ state.free := by
  intro hfree
  rw [LockState.heldBy, hfree client] at h
  cases h

/-- A free lock is granted at once in one of the two modes, if nobody waits for it like that. -/
theorem canGrant_of_free {state : LockState} {request : LockRequest} (h : FreeOfWaiters state)
    (hfree : state.free) (hmode : request.mode.isMode) : canGrant state request = true := by
  have hempty : state.holders.isEmpty = true := Dict.isEmpty_iff.2 hfree
  rcases hmode with hshared | hexclusive
  · have hnone : state.queue.any (·.mode.isStr "exclusive") = false := by
      rw [List.any_eq_false]
      intro r hr hstr
      exact h hfree r hr (.inr (Json.isStr_iff.1 hstr))
    have hreader : request.mode.isStr "exclusive" = false := by
      rw [hshared]
      rfl
    simp [canGrant, hempty, hnone, hreader, Json.isStr_iff.2 hshared]
  · simp [canGrant, hempty, Json.isStr_iff.2 hexclusive]

/-- When `_grant_waiting` leaves a lock free, it has taken nothing, and the head of the queue has
another mode. -/
theorem regrant_of_free {state : LockState} (h : state.regrant.free) :
    state.free ∧ takeGranted state = ([], state.queue) ∧
      ∀ head ∈ state.queue.head?, ¬ head.mode.isMode := by
  unfold LockState.regrant at h
  cases htaken : (takeGranted state).1 with
  | cons request granted =>
      rw [htaken] at h
      exact absurd h (not_free_of_heldBy (heldBy_holdAll_cons _ request granted))
  | nil =>
      rw [htaken, LockState.holdAll] at h
      have hfree : state.free := h
      have hrest := takeGranted_append state
      rw [htaken, List.nil_append] at hrest
      refine ⟨hfree, Prod.ext htaken hrest, fun head hhead hmode => ?_⟩
      rcases takeGranted_cases state with ⟨first, -, -, -, htake⟩ |
        ⟨-, -, -, hnext, hheld⟩ | ⟨-, hnil | ⟨c, mode, hc, -⟩⟩
      · rw [htake] at htaken
        cases htaken
      · rcases hmode with hshared | hexclusive
        · exact hnext head (hrest ▸ hhead) hshared
        · obtain ⟨c, mode, hc⟩ := hheld head hhead hexclusive
          rw [hfree c] at hc
          cases hc
      · rw [hnil] at hhead
        cases hhead
      · rw [hfree c] at hc
        cases hc

/-- A free lock with a head of another mode is left as it is. -/
theorem regrant_of_unknown {state : LockState} (hfree : state.free) {head : LockRequest}
    (hhead : head ∈ state.queue.head?) (hmode : ¬ head.mode.isMode) : state.regrant = state := by
  have hempty : state.holders.isEmpty = true := Dict.isEmpty_iff.2 hfree
  cases hq : state.queue with
  | nil =>
      rw [hq] at hhead
      cases hhead
  | cons first rest =>
      rw [hq] at hhead
      obtain rfl : first = head := Option.some.inj hhead
      have hexclusive : first.mode.isStr "exclusive" = false :=
        Bool.eq_false_iff.2 fun h => hmode (.inr (Json.isStr_iff.1 h))
      have hshared : first.mode.isStr "shared" = false :=
        Bool.eq_false_iff.2 fun h => hmode (.inl (Json.isStr_iff.1 h))
      have htake : takeGranted state = ([], first :: rest) := by
        simp [takeGranted, hq, hempty, hexclusive, hshared, List.span_eq_takeWhile_dropWhile]
      rw [LockState.regrant, htake, ← hq, LockState.holdAll]

/-! ### Every command but one -/

/-- **Every other command keeps the invariant.** -/
theorem FreeOfWaiters.step {sm : LockStateMachine} {name : String} {command : Command}
    {state : LockState} (h : FreeOfWaiters (sm.lockState name))
    (hmove : LockMoves sm name command state) (hok : ¬ StopsAtUnknown sm command) :
    FreeOfWaiters state := by
  intro hfree r hr
  cases hmove with
  | same => exact h hfree r hr
  | grant request hname hnew hgrant =>
      exact absurd hfree (not_free_of_heldBy (heldBy_hold_self _ request))
  | wait request hname hnew hgrant =>
      rcases List.mem_append.1 hr with hr | hr
      · exact h hfree r hr
      · -- in one of the two modes it would have been granted
        obtain rfl := List.mem_singleton.1 hr
        intro hmode
        rw [canGrant_of_free h hfree hmode] at hgrant
        cases hgrant
  | @release clientId hheld =>
      obtain ⟨hleft, htake, hunknown⟩ := regrant_of_free hfree
      rw [LockState.regrant, holdAll_queue, htake] at hr
      intro hmode
      cases hq : (sm.lockState name).queue with
      | nil =>
          have hempty : r ∈ (sm.lockState name).queue := hr
          rw [hq] at hempty
          cases hempty
      | cons head rest =>
          have hhead : head ∈ (sm.lockState name).queue.head? := by
            rw [hq]
            rfl
          exact hok ⟨hheld, hleft, ⟨head, hhead, hunknown head hhead⟩, r, hr, hmode⟩
  | abort hfound => exact h hfree r (List.mem_of_mem_eraseP hr)

/-- After such a release somebody waits for a free lock. -/
theorem not_freeOfWaiters_of_stops {sm : LockStateMachine} {command : Command}
    (h : StopsAtUnknown sm command) :
    ∃ name, ¬ FreeOfWaiters ((sm.apply command).1.lockState name) := by
  cases command with
  | release lock clientId =>
      obtain ⟨hheld, hfree, ⟨head, hhead, hunknown⟩, r, hr, hmode⟩ := h
      refine ⟨lock, fun hwaiters => ?_⟩
      rw [apply, lockState_applyRelease, if_pos ⟨rfl, hheld⟩,
        regrant_of_unknown hfree hhead hunknown] at hwaiters
      exact hwaiters hfree r hr hmode
  | acquire requestId lock clientId mode ttlMs createdAt => exact h.elim
  | abort requestId reason => exact h.elim
  | other op => exact h.elim

/-- **When a free lock has no valid waiter.**  In a sequence of commands nobody ever waits for a
free lock in one of the two modes, if and only if no release stops at a request of another mode. -/
theorem freeOfWaiters_iff (commands : List Command) :
    (∀ pre, pre <+: commands → ∀ name, FreeOfWaiters ((applyAll pre).lockState name)) ↔
    ∀ pre command, pre ++ [command] <+: commands → ¬ StopsAtUnknown (applyAll pre) command := by
  refine Runs.forall_prefix_iff
    (P := fun pre => ∀ name, FreeOfWaiters ((applyAll pre).lockState name)) ?_
    fun pre command _ hfree => ⟨fun hall hstops => ?_, fun hok name => ?_⟩
  · intro name hfree r hr
    cases hr
  · obtain ⟨name, hnot⟩ := not_freeOfWaiters_of_stops hstops
    rw [← applyAll_snoc] at hnot
    exact hnot (hall name)
  · rw [applyAll_snoc]
    exact (hfree name).step (apply_lockMoves _ name command) hok

/-- A writer holds the lock, a request in an unknown mode waits for it, and another writer. -/
def unknownBetween : List Command :=
  [.acquire "r1" "db" "alice" .exclusive .null 0, .acquire "r2" "db" "bob" (.str "read") .null 1,
    .acquire "r3" "db" "carol" .exclusive .null 2]

/-- When the first writer has left, the second waits for a free lock. -/
theorem freeOfWaiters_fails :
    ¬ ∀ (commands : List Command) (name : String),
      FreeOfWaiters ((applyAll commands).lockState name) := by
  intro hall
  have hfree : ((applyAll (unknownBetween ++ [.release "db" "alice"])).lockState "db").free :=
    fun _ => rfl
  refine hall _ "db" hfree ⟨"r3", "db", "carol", .exclusive, 2, .null⟩ ?_ (.inr rfl)
  exact List.mem_cons_of_mem _ (List.mem_singleton_self _)

end LockManager
