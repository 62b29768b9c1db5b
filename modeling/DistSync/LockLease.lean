/-
**Grants that are born expired.**

The `ttl_ms` of a request is the time for which the client may have the lock.  `_grant_request` adds
it to `created_at`, the time of the request.  A request that is granted at once was made just now;
but one that has waited in the queue may have waited longer than its `ttl_ms`, and then its holding
is over when it begins.  `expired_holders` names it at the time of the grant, and the expiry loop
takes the lock away before the client has had it.

A run is a list of commands here, each with the time at which it is applied.

Main definitions:

* `LockManager.Timely` — the times do not decrease, and no request is applied before it is made;
* `LockManager.BornAlive` — **what a release grants has not expired**;
* `LockManager.WaitsInTime` — what it grants has waited for less than its `ttl_ms`.

Main results:

* `LockManager.expiry_of_grant` — the expiry that is recorded for a grant;
* `LockManager.bornAlive_iff`, `LockManager.bornAlive_fails` — **when no grant is born expired**.
-/

import DistSync.LockFairness
import DistSync.LockExpiry
import Mathlib.Algebra.Order.Field.Rat
import Mathlib.Tactic.Linarith

set_option relaxedAutoImplicit false
set_option autoImplicit false

namespace LockManager

open LockStateMachine

/-! ### Runs with times -/

/-- A request is made before it is applied at time `t`. -/
def Command.madeBy (t : ℚ) : Command → Prop
  | .acquire _ _ _ _ _ createdAt => createdAt ≤ t
  | _ => True

/-- The commands are applied at times that do not decrease, each acquire after it was made. -/
def Timely (run : List (ℚ × Command)) : Prop :=
  run.Pairwise (fun first second => first.1 ≤ second.1) ∧ ∀ e ∈ run, e.2.madeBy e.1

/-- The state after a run. -/
def stateAfter (run : List (ℚ × Command)) : LockStateMachine := applyAll (run.map Prod.snd)

/-! ### What a release records -/

/-- The request `r` is granted by the release, after the requests `front` and before `back`, from a
lock that is in `state` when the old holder has left: it is reached, and its expiry is computed. -/
structure GrantedBetween (state : LockState) (front : List LockRequest) (r : LockRequest)
    (back : List LockRequest) : Prop where
  taken : (takeGranted state).1 = front ++ r :: back
  completed : ∀ r' ∈ front ++ [r], expiry? r' ≠ none

/-- The lock when `_grant_waiting` has granted a list of requests. -/
def LockState.granting (state : LockState) (granted : List LockRequest) : LockState :=
  LockState.holdAll { state with queue := (takeGranted state).2 } granted

theorem holdAll_append {state : LockState} {front back : List LockRequest}
    (h : ∀ r ∈ front, expiry? r ≠ none) :
    state.holdAll (front ++ back) = (state.holdAll front).holdAll back := by
  induction front generalizing state with
  | nil => rfl
  | cons r front ih =>
      have hcompleted : (state.hold r).2 = true := by
        rw [hold_snd]
        exact Option.isSome_iff_ne_none.2 (h r List.mem_cons_self)
      rw [List.cons_append, LockState.holdAll_of_hold hcompleted,
        LockState.holdAll_of_hold hcompleted]
      exact ih fun r' hr' => h r' (List.mem_cons_of_mem _ hr')

/-- Granting requests of other clients does not touch an expiry. -/
theorem holderExpiry_holdAll {state : LockState} {granted : List LockRequest} {clientId : String}
    (h : ∀ r ∈ granted, r.clientId ≠ clientId) :
    (state.holdAll granted).holderExpiry.get? clientId = state.holderExpiry.get? clientId := by
  have hhold : ∀ (state : LockState) (r : LockRequest), r.clientId ≠ clientId →
      (state.hold r).1.holderExpiry.get? clientId = state.holderExpiry.get? clientId := by
    intro state r hr
    rw [LockState.hold]
    cases expiry? r with
    | none => rfl
    | some expiry => exact Dict.get?_set.trans (if_neg fun h => hr h.symm)
  induction granted generalizing state with
  | nil => rfl
  | cons r granted ih =>
      have hr := hhold state r (h r List.mem_cons_self)
      cases hcompleted : (state.hold r).2 with
      | false => rw [LockState.holdAll_of_raise hcompleted, hr]
      | true =>
          have hrest : ∀ r' ∈ granted, r'.clientId ≠ clientId := fun r' hr' =>
            h r' (List.mem_cons_of_mem _ hr')
          rw [LockState.holdAll_of_hold hcompleted, ih hrest, hr]

/-- The expiry of a request with a positive `ttl_ms`, where it can be computed. -/
theorem expiry?_of_pos {r : LockRequest} {ms : ℚ} (hms : r.ttlMs = .num ms) (hpos : 0 < ms)
    (hexpiry : expiry? r ≠ none) : expiry? r = some (some (r.createdAt + ms / 1000)) := by
  have htruthy : (Json.num ms).truthy = true := decide_eq_true hpos.ne'
  rw [expiry?, hms, if_pos htruthy, Json.float?] at hexpiry ⊢
  split at hexpiry
  · next hfits => rw [if_pos hfits, Option.map_some]
  · exact absurd rfl hexpiry

theorem GrantedBetween.front {state : LockState} {front back : List LockRequest} {r : LockRequest}
    (h : GrantedBetween state front r back) : ∀ r' ∈ front, expiry? r' ≠ none :=
  fun r' hr' => h.completed r' (List.mem_append_left _ hr')

theorem GrantedBetween.expiry {state : LockState} {front back : List LockRequest} {r : LockRequest}
    {ms : ℚ} (h : GrantedBetween state front r back) (hms : r.ttlMs = .num ms) (hpos : 0 < ms) :
    expiry? r = some (some (r.createdAt + ms / 1000)) :=
  expiry?_of_pos hms hpos (h.completed r (List.mem_append_right _ (List.mem_singleton_self r)))

/-- **The expiry that is recorded for a grant** is counted from the time of the request. -/
theorem expiry_of_grant {state : LockState} {front back : List LockRequest} {r : LockRequest}
    {ms : ℚ} (h : GrantedBetween state front r back) (hms : r.ttlMs = .num ms) (hpos : 0 < ms) :
    (state.granting (front ++ [r])).holderExpiry.get? r.clientId =
      some (some (r.createdAt + ms / 1000)) := by
  have hexpiry := h.expiry hms hpos
  rw [LockState.granting, holdAll_append h.front, holdAll_singleton, LockState.hold]
  simp [hexpiry]

/-- The record stays when the same release does not grant the lock to the client again. -/
theorem expiry_of_last_grant {state : LockState} {front back : List LockRequest} {r : LockRequest}
    {ms : ℚ} (h : GrantedBetween state front r back) (hms : r.ttlMs = .num ms) (hpos : 0 < ms)
    (hlast : ∀ r' ∈ back, r'.clientId ≠ r.clientId) :
    state.regrant.holderExpiry.get? r.clientId = some (some (r.createdAt + ms / 1000)) := by
  have hsplit : front ++ r :: back = (front ++ [r]) ++ back := by simp
  rw [LockState.regrant, h.taken, hsplit, holdAll_append h.completed,
    holderExpiry_holdAll hlast]
  exact expiry_of_grant h hms hpos

/-! ### Alive or expired -/

/-- **What a release at time `t` grants has not expired**: the expiry that is recorded for a granted
request with a positive `ttl_ms` is later than `t`, and, if the record stays, `expired_holders` does
not name the client at `t`. -/
def BornAlive (sm : LockStateMachine) (lock clientId : String) (t : ℚ) : Prop :=
  (sm.lockState lock).heldBy clientId → ∀ front r back ms,
    GrantedBetween ((sm.lockState lock).leave clientId) front r back →
    r.ttlMs = .num ms → 0 < ms →
    (∃ time, t < time ∧ (((sm.lockState lock).leave clientId).granting
      (front ++ [r])).holderExpiry.get? r.clientId = some (some time)) ∧
    ((∀ r' ∈ back, r'.clientId ≠ r.clientId) →
      (lock, r.clientId) ∉ expiredHolders (sm.apply (.release lock clientId)).1 t)

/-- What a release at time `t` grants has waited for less than its `ttl_ms`. -/
def WaitsInTime (sm : LockStateMachine) (lock clientId : String) (t : ℚ) : Prop :=
  (sm.lockState lock).heldBy clientId → ∀ front r back ms,
    GrantedBetween ((sm.lockState lock).leave clientId) front r back →
    r.ttlMs = .num ms → 0 < ms → t - r.createdAt < ms / 1000

theorem bornAlive_release_iff (sm : LockStateMachine) (lock clientId : String) (t : ℚ) :
    BornAlive sm lock clientId t ↔ WaitsInTime sm lock clientId t := by
  constructor
  · intro hborn hheld front r back ms hgranted hms hpos
    obtain ⟨⟨time, hlater, htime⟩, -⟩ := hborn hheld front r back ms hgranted hms hpos
    rw [expiry_of_grant hgranted hms hpos, Option.some.injEq, Option.some.injEq] at htime
    linarith
  · intro hwaits hheld front r back ms hgranted hms hpos
    have hwait := hwaits hheld front r back ms hgranted hms hpos
    have hlater : t < r.createdAt + ms / 1000 := by linarith
    refine ⟨⟨_, hlater, expiry_of_grant hgranted hms hpos⟩, fun hlast hexpired => ?_⟩
    obtain ⟨time, hle, htime⟩ := exists_expiry_of_mem_expiredHolders hexpired
    rw [apply, lockState_applyRelease, if_pos ⟨rfl, hheld⟩,
      expiry_of_last_grant hgranted hms hpos hlast, Option.some.injEq, Option.some.injEq] at htime
    linarith

/-- **When no grant is born expired.**  In a run the expiry of every request that a release grants
from the queue is later than the time of the release, if and only if every such request has waited
for less than its `ttl_ms`. -/
theorem bornAlive_iff (run : List (ℚ × Command)) :
    (∀ pre t lock clientId, pre ++ [(t, .release lock clientId)] <+: run →
      BornAlive (stateAfter pre) lock clientId t) ↔
    ∀ pre t lock clientId, pre ++ [(t, .release lock clientId)] <+: run →
      WaitsInTime (stateAfter pre) lock clientId t := by
  constructor
  · intro hborn pre t lock clientId hpre
    exact (bornAlive_release_iff _ lock clientId t).1 (hborn pre t lock clientId hpre)
  · intro hwaits pre t lock clientId hpre
    exact (bornAlive_release_iff _ lock clientId t).2 (hwaits pre t lock clientId hpre)

/-- Bob asks for Alice's lock, for a second, and gets it after five. -/
def servedLate : List (ℚ × Command) :=
  [(0, .acquire "r1" "db" "alice" .exclusive .null 0),
    (0, .acquire "r2" "db" "bob" .exclusive (.num 1000) 0), (5, .release "db" "alice")]

theorem timely_servedLate : Timely servedLate := by
  constructor
  · simp [servedLate]
  · simp [servedLate, Command.madeBy]

/-- His lock has expired when he gets it. -/
theorem bornAlive_fails :
    ¬ ∀ run : List (ℚ × Command), Timely run →
      ∀ pre t lock clientId, pre ++ [(t, .release lock clientId)] <+: run →
        BornAlive (stateAfter pre) lock clientId t := by
  intro hall
  have hborn := hall servedLate timely_servedLate
    [(0, .acquire "r1" "db" "alice" .exclusive .null 0),
      (0, .acquire "r2" "db" "bob" .exclusive (.num 1000) 0)] 5 "db" "alice" (List.prefix_refl _)
  have hgranted : GrantedBetween (((stateAfter [(0, .acquire "r1" "db" "alice" .exclusive .null 0),
      (0, .acquire "r2" "db" "bob" .exclusive (.num 1000) 0)]).lockState "db").leave "alice") []
      ⟨"r2", "db", "bob", .exclusive, 0, .num 1000⟩ [] := ⟨rfl, by decide⟩
  have hexpired := (hborn rfl [] _ [] 1000 hgranted rfl (by norm_num)).2 (by simp)
  exact hexpired (by decide +kernel)

end LockManager
