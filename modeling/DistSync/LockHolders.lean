/-
**Mutual exclusion of locks.**

What a lock is for does not mention requests or queues: at any time it is held by one writer, or by
a set of readers.  `ReadersWriter` says this as a type, so that two writers, or a writer beside a
reader, cannot be written down.  The holders of a lock in the state machine are a dictionary from
clients to mode strings; `LockManager.Represents` says when such a dictionary is one of those
states.

Every command keeps this.  Requests are granted in two places, at once by `_can_grant` or in a batch
after a release, and both only add readers to readers, or a writer to a free lock.

Main definitions:

* `ReadersWriter` — who holds a lock;
* `LockManager.Represents` — the dictionary of holders is such a state.

Main results:

* `LockManager.exclusion_applyAll` — **every lock is held by readers or by one writer**;
* `LockManager.mutualExclusion` — an exclusive holder is the only one.
-/

import DistSync.LockMachine

set_option relaxedAutoImplicit false
set_option autoImplicit false

/-- Who holds a lock: some readers, possibly none, or one writer. -/
inductive ReadersWriter (κ : Type*)
  | readers (clients : Set κ)
  | writer (client : κ)

namespace LockManager

open LockStateMachine

/-- The dictionary of holders that a state of the lock stands for. -/
def Represents (holders : Dict String Json) : ReadersWriter String → Prop
  | .readers clients => ∀ c mode, holders.get? c = some mode ↔ c ∈ clients ∧ mode = .shared
  | .writer client => ∀ c mode, holders.get? c = some mode ↔ c = client ∧ mode = .exclusive

/-- The lock is held by readers or by one writer. -/
def Exclusion (holders : Dict String Json) : Prop :=
  ∃ held, Represents holders held

theorem Exclusion.empty : Exclusion ∅ :=
  ⟨.readers ∅, fun c mode => by simp⟩

namespace Represents

variable {holders : Dict String Json} {held : ReadersWriter String}

theorem mode (h : Represents holders held) {c : String} {mode : Json}
    (hc : holders.get? c = some mode) : mode = .shared ∨ mode = .exclusive := by
  cases held with
  | readers clients => exact .inl ((h c mode).1 hc).2
  | writer client => exact .inr ((h c mode).1 hc).2

/-- A holder that is not a reader is the writer, and nobody else holds the lock. -/
theorem only_holder (h : Represents holders held) {c c' : String} {mode : Json}
    (hc : holders.get? c = some .exclusive) (hc' : holders.get? c' = some mode) : c' = c := by
  cases held with
  | readers clients =>
      have hmode := ((h c .exclusive).1 hc).2
      simp [Json.exclusive, Json.shared] at hmode
  | writer client => rw [((h c _).1 hc).1, ((h c' _).1 hc').1]

/-- Releasing keeps exclusion. -/
theorem erase (h : Represents holders held) (client : String) :
    Exclusion (holders.erase client) := by
  cases held with
  | readers clients =>
      refine ⟨.readers (clients \ {client}), fun c mode => ?_⟩
      rw [Dict.get?_erase]
      by_cases hc : c = client
      · simp [hc]
      · rw [if_neg hc, h c mode, Set.mem_sdiff, Set.mem_singleton_iff]
        simp [hc]
  | writer writer =>
      by_cases hw : writer = client
      · refine ⟨.readers ∅, fun c mode => ?_⟩
        rw [Dict.get?_erase]
        by_cases hc : c = client
        · simp [hc]
        · simp [h c mode, hw, hc]
      · refine ⟨.writer writer, fun c mode => ?_⟩
        rw [Dict.get?_erase]
        by_cases hc : c = client
        · subst hc
          simp [Ne.symm hw]
        · rw [if_neg hc, h c mode]

/-- A reader may be added when there is no writer. -/
theorem set_shared (h : Represents holders held)
    (hshared : ∀ c, holders.get? c ≠ some .exclusive) (client : String) :
    Exclusion (holders.set client .shared) := by
  cases held with
  | readers clients =>
      refine ⟨.readers (insert client clients), fun c mode => ?_⟩
      rw [Dict.get?_set]
      by_cases hc : c = client
      · simp [hc, eq_comm]
      · simp [hc, h c mode]
  | writer writer => exact absurd ((h writer .exclusive).2 ⟨rfl, rfl⟩) (hshared writer)

/-- A free lock may be given to a writer. -/
theorem set_exclusive (hfree : ∀ c, holders.get? c = none) (client : String) :
    Exclusion (holders.set client .exclusive) := by
  refine ⟨.writer client, fun c mode => ?_⟩
  rw [Dict.get?_set]
  by_cases hc : c = client
  · simp [hc, eq_comm]
  · simp [hc, hfree c]

end Represents

/-! ### Granting -/

/-- Entering a holder does not depend on the expiry, and happens even when that raises. -/
@[simp] theorem hold_holders (state : LockState) (request : LockRequest) :
    (state.hold request).1.holders = state.holders.set request.clientId request.mode := by
  simp only [LockState.hold]
  split <;> rfl

@[simp] theorem hold_queue (state : LockState) (request : LockRequest) :
    (state.hold request).1.queue = state.queue := by
  simp only [LockState.hold]
  split <;> rfl

@[simp] theorem holdAll_queue (state : LockState) (granted : List LockRequest) :
    (state.holdAll granted).queue = state.queue := by
  induction granted generalizing state with
  | nil => rfl
  | cons request granted ih =>
      cases h : (state.hold request).2 with
      | false => rw [LockState.holdAll_of_raise h, hold_queue]
      | true => rw [LockState.holdAll_of_hold h, ih, hold_queue]

/-- A free lock, or a lock without a writer, as `_can_grant` and `_grant_waiting` find out. -/
theorem all_shared_iff {holders : Dict String Json} :
    holders.values.all (·.isStr "shared") = true ↔
      ∀ c mode, holders.get? c = some mode → mode = .shared := by
  simp only [List.all_eq_true, Dict.mem_values_iff, Json.isStr_iff, Json.shared]
  exact ⟨fun h c mode hc => h mode ⟨c, hc⟩, fun h mode ⟨c, hc⟩ => h c mode hc⟩

theorem any_exclusive_iff {holders : Dict String Json} :
    holders.values.any (·.isStr "exclusive") = true ↔
      ∃ c, holders.get? c = some .exclusive := by
  simp only [List.any_eq_true, Dict.mem_values_iff, Json.isStr_iff, Json.exclusive]
  constructor
  · rintro ⟨mode, ⟨c, hc⟩, rfl⟩
    exact ⟨c, hc⟩
  · rintro ⟨c, hc⟩
    exact ⟨_, ⟨c, hc⟩, rfl⟩

/-- `_can_grant` lets a writer have a free lock, and a reader a lock without a writer. -/
theorem canGrant_cases {state : LockState} {request : LockRequest}
    (h : canGrant state request = true) :
    (request.mode = .exclusive ∧ ∀ c, state.holders.get? c = none) ∨
    (request.mode = .shared ∧ (∀ c, state.holders.get? c ≠ some .exclusive) ∧
      ∀ q ∈ state.queue, q.mode ≠ .exclusive) := by
  unfold canGrant at h
  split at h
  · next hfree => exact .inl ⟨Json.isStr_iff.1 hfree.2, Dict.isEmpty_iff.1 hfree.1⟩
  · split at h
    · next hfree =>
        refine .inr ⟨Json.isStr_iff.1 hfree.2, fun c => ?_, fun q hq hmode => ?_⟩
        · rw [Dict.isEmpty_iff.1 hfree.1 c]
          simp
        · simp only [Bool.not_eq_true', List.any_eq_false] at h
          exact h q hq (Json.isStr_iff.2 hmode)
    · split at h
      · cases h
      · split at h
        · next hmode =>
            split at h
            · cases h
            · next hwriter =>
                split at h
                · cases h
                · next hqueue =>
                    refine .inr ⟨Json.isStr_iff.1 hmode, fun c hc => ?_, fun q hq hq' => ?_⟩
                    · exact hwriter (any_exclusive_iff.2 ⟨c, hc⟩)
                    · exact hqueue (List.any_eq_true.2 ⟨q, hq, Json.isStr_iff.2 hq'⟩)
        · cases h

/-- The head of what is left after the readers at the front of a queue were taken. -/
theorem span_shared (queue : List LockRequest) :
    (∀ request ∈ (queue.span (·.mode.isStr "shared")).1, request.mode = .shared) ∧
    queue = (queue.span (·.mode.isStr "shared")).1 ++ (queue.span (·.mode.isStr "shared")).2 ∧
    ∀ next ∈ (queue.span (·.mode.isStr "shared")).2.head?, next.mode ≠ .shared := by
  simp only [List.span_eq_takeWhile_dropWhile]
  refine ⟨fun request hmem => ?_, (List.takeWhile_append_dropWhile).symm,
    fun next hnext hmode => ?_⟩
  · have hall := List.all_takeWhile (p := fun r : LockRequest => r.mode.isStr "shared") (l := queue)
    exact Json.isStr_iff.1 (List.all_eq_true.1 hall request hmem)
  · have hnot := List.head?_dropWhile_not (fun r : LockRequest => r.mode.isStr "shared") queue
    rw [Option.mem_def.1 hnext] at hnot
    exact absurd (Json.isStr_iff.2 hmode) (Bool.eq_false_iff.1 hnot)

/-- `_grant_waiting` takes one writer for a free lock, or readers for a lock without a writer. -/
theorem takeGranted_cases (state : LockState) :
    (∃ first, first.mode = .exclusive ∧ (∀ c, state.holders.get? c = none) ∧
      state.queue = first :: (takeGranted state).2 ∧ (takeGranted state).1 = [first]) ∨
    ((∀ c mode, state.holders.get? c = some mode → mode = .shared) ∧
      (∀ request ∈ (takeGranted state).1, request.mode = .shared) ∧
      state.queue = (takeGranted state).1 ++ (takeGranted state).2 ∧
      (∀ next ∈ (takeGranted state).2.head?, next.mode ≠ .shared) ∧
      ∀ head ∈ state.queue.head?, head.mode = .exclusive → ∃ c mode,
        state.holders.get? c = some mode) ∨
    (takeGranted state = ([], state.queue) ∧
      (state.queue = [] ∨ ∃ c mode, state.holders.get? c = some mode ∧ mode ≠ .shared)) := by
  cases hq : state.queue with
  | nil => exact .inr (.inr ⟨by rw [takeGranted, hq], .inl rfl⟩)
  | cons first rest =>
      by_cases hfree : state.holders.isEmpty = true
      · have hnone := Dict.isEmpty_iff.1 hfree
        -- a free lock goes to a writer at the head, or to the readers in front of the first writer
        by_cases hfirst : first.mode.isStr "exclusive" = true
        · have htake : takeGranted state = ([first], rest) := by
            rw [takeGranted, hq]
            simp only [if_pos hfree, if_pos hfirst]
          exact .inl ⟨first, Json.isStr_iff.1 hfirst, hnone, by rw [htake], by rw [htake]⟩
        · have htake : takeGranted state = (first :: rest).span (·.mode.isStr "shared") := by
            rw [takeGranted, hq]
            simp only [if_pos hfree, if_neg hfirst]
          obtain ⟨hshared, hqueue, hnext⟩ := span_shared (first :: rest)
          rw [htake]
          refine .inr (.inl ⟨fun c mode hc => ?_, hshared, hqueue, hnext,
            fun head hhead hmode => ?_⟩)
          · rw [hnone c] at hc
            cases hc
          · cases hhead
            exact absurd (Json.isStr_iff.2 hmode) hfirst
      · by_cases hall : state.holders.values.all (·.isStr "shared") = true
        · have htake : takeGranted state = (first :: rest).span (·.mode.isStr "shared") := by
            rw [takeGranted, hq]
            simp only [if_neg hfree, if_pos hall]
          obtain ⟨hshared, hqueue, hnext⟩ := span_shared (first :: rest)
          rw [htake]
          exact .inr (.inl ⟨all_shared_iff.1 hall, hshared, hqueue, hnext, fun _ _ _ =>
            Dict.isEmpty_eq_false_iff.1 (Bool.eq_false_iff.2 hfree)⟩)
        · have htake : takeGranted state = ([], first :: rest) := by
            rw [takeGranted, hq]
            simp only [if_neg hfree, if_neg hall]
          rw [all_shared_iff] at hall
          push Not at hall
          exact .inr (.inr ⟨htake, .inr hall⟩)

/-- What is granted and what is left make up the queue. -/
theorem takeGranted_append (state : LockState) :
    (takeGranted state).1 ++ (takeGranted state).2 = state.queue := by
  rcases takeGranted_cases state with ⟨first, -, -, hqueue, htake⟩ | ⟨-, -, hqueue, -⟩ |
    ⟨htake, -⟩
  · rw [htake, hqueue, List.singleton_append]
  · exact hqueue.symm
  · rw [htake, List.nil_append]

/-- Granting readers keeps a lock without a writer so. -/
theorem holdAll_shared {state : LockState} {granted : List LockRequest}
    (h : ∀ c mode, state.holders.get? c = some mode → mode = .shared)
    (hgranted : ∀ request ∈ granted, request.mode = .shared) :
    ∀ c mode, (state.holdAll granted).holders.get? c = some mode → mode = .shared := by
  induction granted generalizing state with
  | nil => exact h
  | cons request granted ih =>
      have hhold : ∀ c mode, (state.hold request).1.holders.get? c = some mode →
          mode = .shared := by
        intro c mode hc
        rw [hold_holders, Dict.get?_set] at hc
        split at hc
        · rw [← Option.some.inj hc]
          exact hgranted request List.mem_cons_self
        · exact h c mode hc
      cases hcompleted : (state.hold request).2 with
      | false => rwa [LockState.holdAll_of_raise hcompleted]
      | true =>
          rw [LockState.holdAll_of_hold hcompleted]
          exact ih hhold fun r hr => hgranted r (List.mem_cons_of_mem _ hr)

theorem Exclusion.of_shared {holders : Dict String Json}
    (h : ∀ c mode, holders.get? c = some mode → mode = .shared) : Exclusion holders := by
  refine ⟨.readers {c | (holders.get? c).isSome = true}, fun c mode => ?_⟩
  rw [Set.mem_ofPred_eq, Option.isSome_iff_exists]
  constructor
  · intro hc
    exact ⟨⟨mode, hc⟩, h c mode hc⟩
  · rintro ⟨⟨mode', hc⟩, rfl⟩
    rw [hc, h c mode' hc]

theorem holdAll_singleton (state : LockState) (request : LockRequest) :
    state.holdAll [request] = (state.hold request).1 := by
  cases h : (state.hold request).2 with
  | false => rw [LockState.holdAll_of_raise h]
  | true => rw [LockState.holdAll_of_hold h, LockState.holdAll]

theorem Exclusion.regrant {state : LockState} (h : Exclusion state.holders) :
    Exclusion state.regrant.holders := by
  unfold LockState.regrant
  rcases takeGranted_cases state with ⟨first, hmode, hfree, -, htake⟩ | ⟨hshared, hgranted, -, -⟩ |
    ⟨htake, -⟩
  · rw [htake, holdAll_singleton, hold_holders, hmode]
    exact Represents.set_exclusive hfree _
  · exact .of_shared (holdAll_shared hshared hgranted)
  · rw [htake]
    exact h

/-! ### Every reachable state -/

theorem exclusion_step {sm : LockStateMachine} {name : String} {command : Command}
    {state : LockState} (hmove : LockMoves sm name command state)
    (h : Exclusion (sm.lockState name).holders) : Exclusion state.holders := by
  obtain ⟨held, hheld⟩ := h
  cases hmove with
  | same => exact ⟨held, hheld⟩
  | grant request hname hnew hgrant =>
      rw [hold_holders]
      rcases canGrant_cases hgrant with ⟨hmode, hfree⟩ | ⟨hmode, hshared, -⟩
      · rw [hmode]
        exact Represents.set_exclusive hfree _
      · rw [hmode]
        exact hheld.set_shared hshared _
  | wait request hname hnew hgrant => exact ⟨held, hheld⟩
  | release hclient => exact (hheld.erase _).regrant
  | abort hfound => exact ⟨held, hheld⟩

/-- **Every lock is held by readers or by one writer.** -/
theorem exclusion_applyAll (commands : List Command) (name : String) :
    Exclusion ((applyAll commands).lockState name).holders := by
  induction commands using List.reverseRecOn with
  | nil => exact Exclusion.empty
  | append_singleton commands command ih =>
      rw [applyAll_snoc]
      exact exclusion_step (apply_lockMoves _ name command) ih

/-- **Mutual exclusion.**  Every holder of a lock has one of the two modes, and an exclusive holder
is the only one. -/
theorem mutualExclusion (commands : List Command) (name : String) (state : LockState)
    (hstate : (applyAll commands).locks.get? name = some state) :
    (∀ c mode, state.holders.get? c = some mode → mode = .shared ∨ mode = .exclusive) ∧
    (∀ c c' mode, state.holders.get? c = some .exclusive → state.holders.get? c' = some mode →
      c' = c) := by
  obtain ⟨held, hheld⟩ := exclusion_applyAll commands name
  rw [lockState_eq_of_get? hstate] at hheld
  exact ⟨fun _ _ => hheld.mode, fun _ _ _ => hheld.only_holder⟩

/-- A writer takes a free lock, and a reader comes after it. -/
def writerThenReader : List Command :=
  [.acquire "r1" "db" "alice" .exclusive .null 0, .acquire "r2" "db" "bob" .shared .null 1]

/-- The writer is the only holder. -/
theorem mutualExclusion_writerThenReader :
    ∃ state, (applyAll writerThenReader).locks.get? "db" = some state ∧
      state.holders.get? "alice" = some .exclusive ∧
      ∀ c mode, state.holders.get? c = some mode → c = "alice" :=
  ⟨_, rfl, rfl, fun c mode => (mutualExclusion writerThenReader "db" _ rfl).2 "alice" c mode rfl⟩

end LockManager
